/-
# A prepared text with lines put in

When blank lines are put into a text, its two copies are spread in the same way,
and its places are pushed. What is read off the text at some place is then read
off the other text at the pushed place: names, depths of braces, brackets and the
ends of blocks, properties, arguments. The spans move with their ends.

Key definitions: `Text.Widens`.
Key theorems: `Text.Widens.slice_bare`, `Text.Widens.name_eq`,
`Text.Widens.closingBrace?`, `Text.Widens.property?`, `Text.Widens.arguments`,
`Source.closingEnd?_of_widens`.
-/
import Mathlib.Data.List.Find
import Mathlib.Order.MinMax
import TreeLint.Proofs.Sites
import TreeLint.Proofs.WidenedPatterns

namespace TreeLint

namespace Cells

variable {push : Nat → Nat} {pos : Nat} {cs ds : Cells}

/-- A byte that is no line feed takes one place in both texts. -/
theorem Widens.push_succ (h : Widens push pos cs ds) {i : Nat} {x : Cell} (hx : cs[i]? = some x)
    (hne : x ≠ Cell.feed) : push (pos + i + 1) = push (pos + i) + 1 := by
  induction h generalizing i with
  | nil => cases hx
  | @cons pos y cs ds hpush h ih =>
    cases i with
    | zero => exact hpush
    | succ i =>
      rw [show pos + (i + 1) = pos + 1 + i by omega]
      exact ih hx
  | @feed pos line cs ds hline hpush h ih =>
    cases i with
    | zero => exact absurd (Option.some.inj hx).symm hne
    | succ i =>
      rw [show pos + (i + 1) = pos + 1 + i by omega]
      exact ih hx

theorem trailingBlanks_le (cs : Cells) : cs.trailingBlanks ≤ cs.length := by
  have hle := (List.takeWhile_prefix Cell.isBlank (l := cs.reverse)).length_le
  rwa [List.length_reverse] at hle

theorem ne_feed {x : Cell} {c : Char} (hx : x.char = c) (hc : CharClass.isBlank c = false) :
    x ≠ Cell.feed := by
  rintro rfl
  subst hx
  cases hc

end Cells

namespace Source

/-- Blank lines are put into the first text: its copies are spread, and places and spans move. -/
structure Text.Widens (push : Nat → Nat) (move : Span → Span) (t t' : Text) : Prop where
  mono : StrictMono push
  bare : Cells.Widens push 0 t.bare (t'.bare.drop (push 0))
  masked : Cells.Widens push 0 t.masked (t'.masked.drop (push 0))
  depths_eq : t.depths = depthsFrom 0 t.bare
  depths_eq' : t'.depths = depthsFrom 0 t'.bare
  lead : ∀ x ∈ t'.bare.take (push 0), x.isBlank = true
  push_le : push 0 ≤ t'.bare.length
  span : ∀ r, t'.span (r.map push) = move (t.span r)

namespace Text

variable {push : Nat → Nat} {move : Span → Span} {t t' : Text} {S : Cells} {r : Extent} {i : Nat}

namespace Widens

theorem slice_of_widens (hmono : Monotone push) {cs ds : Cells}
    (h : Cells.Widens push 0 cs (ds.drop (push 0))) (r : Extent) :
    Cells.Widens push r.start (cs.slice r) (ds.slice (r.map push)) := by
  have hslice := h.slice hmono r.start r.stop
  have hstart := hmono (Nat.zero_le r.start)
  rw [Nat.zero_add, Nat.zero_add] at hslice
  unfold Cells.slice at hslice ⊢
  rw [List.drop_drop] at hslice
  simp only at hslice
  rwa [show push 0 + (push r.start - push 0) = push r.start by omega,
    show push r.stop - push 0 - (push r.start - push 0) = push r.stop - push r.start by omega]
    at hslice

section Parts

variable (h : t.Widens push move t')
include h

theorem slice_bare (r : Extent) :
    Cells.Widens push r.start (t.bare.slice r) (t'.bare.slice (r.map push)) :=
  slice_of_widens h.mono.monotone h.bare r

theorem slice_masked (r : Extent) :
    Cells.Widens push r.start (t.masked.slice r) (t'.masked.slice (r.map push)) :=
  slice_of_widens h.mono.monotone h.masked r

theorem length : t'.length = push t.length := by
  have hlength := h.bare.push_length
  have hle := h.push_le
  rw [Nat.zero_add, List.length_drop] at hlength
  show t'.bare.length = push t.bare.length
  omega

theorem drop_bare (i : Nat) : Cells.Widens push i (t.bare.drop i) (t'.bare.drop (push i)) := by
  have hdrop := h.bare.drop h.mono.monotone i
  have hle := h.mono.monotone (Nat.zero_le i)
  rwa [Nat.zero_add, List.drop_drop, show push 0 + (push i - push 0) = push i by omega] at hdrop

theorem push_succ {x : Cell} (hx : t.bare[i]? = some x) (hne : x ≠ Cell.feed) :
    push (i + 1) = push i + 1 := by
  have hstep := h.bare.push_succ hx hne
  rwa [Nat.zero_add] at hstep

/-! ### Names -/

/-- The name written in an interval may be spread over further lines. -/
theorem name (r : Extent) : Name.SpreadsTo (t.name r) (t'.name (r.map push)) :=
  (h.slice_masked r).spreads.toList_unquote

theorem name_eq (hr : '\n' ∉ (t.name r).toList) : t'.name (r.map push) = t.name r :=
  (h.name r).eq hr

/-! ### Depths and brackets -/

theorem depth (hi : i ≤ t.bare.length) : t'.depth (push i) = t.depth i := by
  have hat := h.bare.getElem?_depthsFrom h.mono.monotone 0 i hi
  have hle := h.mono.monotone (Nat.zero_le i)
  have hsplit := List.take_append_drop (push 0) t'.bare
  have hlength : (t'.bare.take (push 0)).length = push 0 :=
    (List.length_take ..).trans (Nat.min_eq_left h.push_le)
  have hdepths : t'.depths = List.replicate (push 0) 0 ++ depthsFrom 0 (t'.bare.drop (push 0)) := by
    rw [h.depths_eq', ← hsplit, depthsFrom_append fun x hx =>
      ⟨Cells.char_ne_of_blank h.lead rfl x hx, Cells.char_ne_of_blank h.lead rfl x hx⟩, hsplit, hlength]
  rw [Nat.zero_add] at hat
  rw [Text.depth, Text.depth, List.getD_eq_getElem?_getD, List.getD_eq_getElem?_getD, hdepths,
    List.getElem?_append_right (by simpa using hle), List.length_replicate, hat, h.depths_eq]

end Parts

section Marks

variable (h : t.Widens push move t')
include h

theorem closingBrace? {x : Cell} (hx : t.bare[i]? = some x) (hne : x ≠ Cell.feed) :
    t'.closingBrace? (push i) = (t.closingBrace? i).map push := by
  have hlt := (List.getElem?_eq_some_iff.mp hx).1
  have hsucc := h.push_succ hx hne
  have hlength : push t.bare.length = t'.bare.length := h.length.symm
  have hle := h.mono.monotone (show i + 1 ≤ t.bare.length from hlt)
  have hdepth := h.depth (show i + 1 ≤ t.bare.length from hlt)
  rw [Text.closingBrace?, Text.closingBrace?, h.depth hlt.le, ← hsucc, h.depths_eq, h.depths_eq',
    drop_depthsFrom (by omega), drop_depthsFrom (by omega), ← h.depths_eq, ← h.depths_eq']
  rw [Text.depth] at hdepth
  rw [hdepth]
  exact (h.drop_bare (i + 1)).braceEnd _ _

theorem findChar? {c : Char} (hc : CharClass.isBlank c = false) (i : Nat) :
    Cells.findChar? c (push i) (t'.bare.drop (push i)) =
      (Cells.findChar? c i (t.bare.drop i)).map push :=
  (h.drop_bare i).findChar? hc

/-! ### Searches -/

theorem ofSlice (r : Extent) :
    Cursor.Widens push (Cursor.ofSlice t.bare r) (Cursor.ofSlice t'.bare (r.map push)) :=
  ⟨rfl, h.slice_bare r, rfl⟩

/-- **Properties** stand at the pushed places. -/
theorem property? (ht : t.Copies S) (hr : S.Cuts r) {p : Pattern Extent}
    (hp : p.Widens push t.bare r.stop (Extent.map push)) (depth : Nat) :
    t'.property? p (r.map push) depth = (t.property? p r depth).map (Extent.map push) := by
  have hbare := ht.bare.cuts hr
  have hin := Cursor.in_ofSlice hbare.le hbare.start
  rw [Text.property?, Text.property?, hp.all h.mono hbare.stop_le hin (h.ofSlice r), List.find?_map,
    Option.map_map, Option.map_map]
  have hsame : ∀ f ∈ p.all (Cursor.ofSlice t.bare r),
      (fun f : Found Extent => t'.depth f.extent.start == depth) (f.map push (Extent.map push)) =
        (t.depth f.extent.start == depth) := by
    intro f hf
    obtain ⟨c, d, hc, -, -, -, hextent⟩ := Pattern.foundFrom_of_mem_all hbare.stop_le hin hf
    have hle : f.extent.start ≤ t.bare.length := by
      rw [hextent]
      exact hc.pos_le.trans hbare.stop_le
    show (t'.depth (push f.extent.start) == depth) = _
    rw [h.depth hle]
  have hfind : (p.all (Cursor.ofSlice t.bare r)).find?
      ((fun f : Found Extent => t'.depth f.extent.start == depth) ∘ Found.map push (Extent.map push)) =
      (p.all (Cursor.ofSlice t.bare r)).find? fun f => t.depth f.extent.start == depth :=
    List.find?_congr hsame
  rw [hfind]
  rfl

/-! ### Arguments -/

theorem trim (hr : r.start ≤ r.stop) (hstop : r.stop ≤ t.bare.length) :
    t'.trim (r.map push) = (t.trim r).map push := by
  have hslice := h.slice_bare r
  have hlead := hslice.leadingBlanks
  have hpush := hslice.push_length
  have hlength : (t.bare.slice r).length = r.stop - r.start := Cells.length_slice hstop
  rw [hlength, show r.start + (r.stop - r.start) = r.stop by omega] at hpush
  -- without the blanks behind it the interval ends at the pushed place, unless it is blank
  have hend : push (max (r.stop - (t.bare.slice r).trailingBlanks)
        (r.start + (t.bare.slice r).leadingBlanks)) =
      max (push r.stop - (t'.bare.slice (r.map push)).trailingBlanks)
        (push (r.start + (t.bare.slice r).leadingBlanks)) := by
    rw [h.mono.monotone.map_max]
    cases hblank : Cells.isBlank (t.bare.slice r) with
    | false =>
      have htrail := hslice.trailingBlanks hblank
      have hle := Cells.trailingBlanks_le (t.bare.slice r)
      have hle' := Cells.trailingBlanks_le (t'.bare.slice (r.map push))
      rw [hlength, show r.start + (r.stop - r.start - (t.bare.slice r).trailingBlanks) =
        r.stop - (t.bare.slice r).trailingBlanks by omega] at htrail
      rw [htrail]
      congr 1
      omega
    | true =>
      have hall : (t.bare.slice r).leadingBlanks = r.stop - r.start := by
        rw [Cells.leadingBlanks, List.takeWhile_eq_self_iff.mpr (List.all_eq_true.mp hblank), hlength]
      have hle := h.mono.monotone (Nat.sub_le r.stop (t.bare.slice r).trailingBlanks)
      rw [hall, show r.start + (r.stop - r.start) = r.stop by omega]
      omega
  rw [Text.trim, Text.trim]
  simp only [Extent.map] at hlead hend ⊢
  rw [hend, hlead]

theorem arguments (ht : t.Copies S) (hr : S.Cuts r) :
    t'.arguments (r.map push) = (t.arguments r).map (Extent.map push) := by
  have hslice := h.slice_bare r
  unfold Text.arguments
  rw [hslice.spreads.isBlank]
  split
  · rfl
  · show List.map _ (piecesFrom 0 (push r.start) (push r.start) _) = _
    rw [hslice.piecesFrom, List.map_map, List.map_map]
    refine List.map_congr_left fun p hp => ?_
    obtain ⟨hcuts, -, -⟩ := ht.cuts_of_separated hr (by decide) (by decide)
      (separated_pieces (ht.bare.cuts hr)) hp
    exact h.trim hcuts.le (ht.bare.cuts hcuts).stop_le

end Marks
end Widens
end Text

/-! ### Ends of brackets and blocks -/

section Ends

variable {push : Nat → Nat} {c d : Cursor} {cs : Cells} {stop : Nat}

theorem closingParen?_of_widens (h : c.Widens push d) :
    closingParen? d = (closingParen? c).map push := by
  rw [closingParen?, closingParen?, h.pos_eq]
  exact h.rest.parenEnd 0

/-- In a part of the text an opening parenthesis is closed at the pushed place. -/
theorem Text.Widens.closingParen?_moveTo {move : Span → Span} {t t' : Text}
    (h : t.Widens push move t') {r : Extent} (hstop : r.stop ≤ t.bare.length) {opening : Nat}
    (hle : r.start ≤ opening) (hle' : opening ≤ r.stop) :
    closingParen? ((Cursor.ofSlice t'.bare (r.map push)).moveTo (push opening)) =
      (closingParen? ((Cursor.ofSlice t.bare r).moveTo opening)).map push := by
  refine closingParen?_of_widens ((h.ofSlice r).moveTo h.mono.monotone opening hle ?_)
  simp only [Cursor.ofSlice, Cells.length_slice hstop]
  omega

theorem closingEnd?_of_widens (hmono : StrictMono push) (hcs : cs.Whole)
    (hstop : cs.isBoundary stop = true) (hc : c.Stands cs stop) (h : c.Widens push d) :
    closingEnd? d = (closingEnd? c).map push := by
  have hin : Cursor.In cs stop ⟨none, c.pos, c.rest⟩ :=
    ⟨hc.rest_eq, hc.pos_le, Or.inl ⟨rfl, hc.boundary⟩⟩
  have hskip : push c.pos + 0 = push (c.pos + 0) := rfl
  rw [closingEnd?, closingEnd?, blockEndFrom_eq_blockEnd, blockEndFrom_eq_blockEnd, h.pos_eq,
    (widens_blockToken hcs hstop).allFrom hmono (Cells.le_length_of_isBoundary hstop) h.rest hin rfl
      hskip, blockEnd_map]

end Ends
end Source
end TreeLint
