/-
# A blank line put into a text

Lines start where they did, or further down, and so a place keeps its column
(`Text.AddsLine.position`). The attribute lines above a header are gone through
from the header upwards, and each step stays where it is or moves down, up to the
line that was put in: there the search ends (`Text.AddsLine.attributesUp`). So a blank
line changes nothing that is read off the text but for a routine that it parts from
attribute lines, which are left out.

Key definitions: `Cells.putLine`, `Text.AddsLine`, `Span.makeRoom`,
`Text.attributesUp`.
Key theorems: `Text.AddsLine.widens`, `Text.AddsLine.readsAttributes`.
-/
import TreeLint.Proofs.GuardedScan
import TreeLint.Proofs.LineNumbers
import TreeLint.Proofs.Regions
import TreeLint.Proofs.RoutineLines
import TreeLint.Proofs.WidenedRoutines

namespace TreeLint

open Guarded (Lined lineStartFrom)
open Pragma (pushed)

/-! ### Putting in a line -/

namespace Cells

/-- The text with a line put in at a place. -/
def putLine (cs : Cells) (place : Nat) (line : Cells) : Cells :=
  cs.take place ++ (line ++ [Cell.feed]) ++ cs.drop place

variable {place i : Nat} {line cs : Cells} {r : Extent}

section Parts

variable (hplace : place ≤ cs.length)
include hplace

theorem length_take_line :
    (cs.take place ++ (line ++ [Cell.feed])).length = place + (line.length + 1) := by
  simp only [List.length_append, List.length_take, List.length_singleton]
  omega

theorem length_putLine : (cs.putLine place line).length = cs.length + (line.length + 1) := by
  rw [putLine, List.length_append, length_take_line hplace, List.length_drop]
  omega

theorem take_putLine_of_le (hi : i ≤ place) : (cs.putLine place line).take i = cs.take i := by
  rw [putLine, List.append_assoc, List.take_append_of_le_length (by rw [List.length_take]; omega),
    List.take_take, Nat.min_eq_left hi]

theorem take_putLine_of_ge (hi : place ≤ i) :
    (cs.putLine place line).take (i + (line.length + 1)) = putLine (cs.take i) place line := by
  rw [putLine, putLine, List.take_take, Nat.min_eq_left hi, List.drop_take,
    show i + (line.length + 1) = place + (line.length + 1) + (i - place) by omega,
    ← length_take_line hplace, List.take_length_add_append]

theorem take_putLine_line :
    (cs.putLine place line).take (place + line.length) = cs.take place ++ line := by
  have hlength : (cs.take place ++ line).length = place + line.length := by
    rw [List.length_append, List.length_take]
    omega
  rw [putLine, ← List.append_assoc, List.append_assoc _ [Cell.feed], List.take_left' hlength]

theorem drop_putLine_of_ge (hi : place ≤ i) :
    (cs.putLine place line).drop (i + (line.length + 1)) = cs.drop i := by
  rw [putLine, show i + (line.length + 1) = place + (line.length + 1) + (i - place) by omega,
    ← length_take_line hplace, List.drop_length_add_append, List.drop_drop, Nat.add_sub_cancel' hi]

theorem slice_putLine_of_le (hr : r.stop ≤ place) : (cs.putLine place line).slice r = cs.slice r := by
  rw [slice, slice, ← List.drop_take, ← List.drop_take, take_putLine_of_le hplace hr]

theorem slice_putLine_of_ge (hr : place ≤ r.start) :
    (cs.putLine place line).slice ⟨r.start + (line.length + 1), r.stop + (line.length + 1)⟩ =
      cs.slice r := by
  rw [slice, slice, drop_putLine_of_ge hplace hr, Nat.add_sub_add_right]

theorem slice_putLine_line : (cs.putLine place line).slice ⟨place, place + line.length⟩ = line := by
  have hlength : (cs.take place).length = place := by
    rw [List.length_take]
    omega
  rw [slice, putLine, List.append_assoc, List.append_assoc, List.drop_left' hlength,
    Nat.add_sub_cancel_left, List.take_left]

omit hplace in
theorem blank_of_mem_line (hblank : ∀ x ∈ line, x.isBlank = true) {x : Cell}
    (hx : x ∈ line ++ [Cell.feed]) : x.isBlank = true := by
  rcases List.mem_append.mp hx with hx | hx
  · exact hblank x hx
  · rw [List.mem_singleton.mp hx]
    rfl

/-- The place is pushed behind the line. -/
theorem widens_putLine (hblank : ∀ x ∈ line, x.isBlank = true)
    (hfeed : place = 0 ∨ 0 < place ∧ cs[place - 1]? = some Cell.feed) :
    Widens (pushed place (line.length + 1)) 0 cs
      ((cs.putLine place line).drop (pushed place (line.length + 1) 0)) := by
  -- behind the line each place is pushed as far as the one before it
  have hbehind : ∀ (pos : Nat) (ds : Cells), place ≤ pos →
      Widens (pushed place (line.length + 1)) pos ds ds := by
    intro pos ds hpos
    induction ds generalizing pos with
    | nil => exact .nil
    | cons x ds ih => exact .cons x (by grind [pushed]) (ih (pos + 1) (by omega))
  have hfront : ∀ (n pos : Nat) (ds : Cells), pos + (n + 1) = place → ds[n]? = some Cell.feed →
      Widens (pushed place (line.length + 1)) pos ds (putLine ds (n + 1) line) := by
    intro n
    induction n with
    | zero =>
      intro pos ds hpos hds
      cases ds with
      | nil => cases hds
      | cons x ds =>
        cases hds
        rw [show putLine (Cell.feed :: ds) (0 + 1) line =
          Cell.feed :: (line ++ [Cell.feed] ++ ds) from rfl]
        exact .feed (fun _ hx => blank_of_mem_line hblank hx) (by grind [pushed]) (hbehind (pos + 1) ds (by omega))
    | succ n ih =>
      intro pos ds hpos hds
      cases ds with
      | nil => cases hds
      | cons x ds => exact .cons x (by grind [pushed]) (ih (pos + 1) ds (by omega) hds)
  rcases hfeed with rfl | ⟨hpos, hfeed⟩
  · have hdrop := @drop_putLine_of_ge 0 0 line cs hplace le_rfl
    rw [Nat.zero_add, List.drop_zero] at hdrop
    rw [show pushed 0 (line.length + 1) 0 = line.length + 1 by simp [pushed], hdrop]
    exact hbehind 0 cs le_rfl
  · rw [pushed, if_pos hpos, List.drop_zero]
    have hwidens := hfront (place - 1) 0 cs (by omega) hfeed
    rwa [show place - 1 + 1 = place by omega] at hwidens

end Parts

variable (hsingle : ∀ x ∈ line, x.char ≠ '\n')
include hsingle

/-- The line has one line feed, at its end. -/
theorem countP_putLine (place : Nat) (cs : Cells) :
    (cs.putLine place line).countP (·.char = '\n') = cs.countP (·.char = '\n') + 1 := by
  have hline : line.countP (·.char = '\n') = 0 :=
    List.countP_eq_zero.mpr fun x hx => by simpa using hsingle x hx
  have hsplit := congrArg (List.countP (·.char = '\n')) (List.take_append_drop place cs)
  rw [List.countP_append] at hsplit
  rw [putLine, List.countP_append, List.countP_append, List.countP_append,
    List.countP_singleton, hline]
  simp only [Cell.feed, decide_true, if_true]
  omega

omit hsingle in
theorem lineStartFrom_add (start pos k : Nat) (cs : Cells) :
    lineStartFrom (start + k) (pos + k) cs = lineStartFrom start pos cs + k := by
  induction cs generalizing start pos with
  | nil => rfl
  | cons x cs ih =>
    rw [lineStartFrom, lineStartFrom, Nat.add_right_comm pos k 1]
    split <;> exact ih _ _

theorem lineStartFrom_of_single (start pos : Nat) : lineStartFrom start pos line = start := by
  rcases Guarded.cases_lineStartFrom start pos line with ⟨heq, -⟩ | ⟨front, x, back, rfl, hx, -, -⟩
  · exact heq
  · exact absurd hx (hsingle x (by simp))

omit hsingle in
theorem lineStartFrom_take (hplace : place ≤ cs.length) (hstarts : cs.StartsLine place) :
    lineStartFrom 0 0 (cs.take place) = place := by
  rcases hstarts with rfl | ⟨hpos, x, hx, hchar⟩
  · rfl
  · have hsplit : cs.take place = cs.take (place - 1) ++ [x] := by
      have htake := List.take_add_one (l := cs) (i := place - 1)
      rwa [hx, show place - 1 + 1 = place by omega] at htake
    rw [hsplit, Guarded.lineStartFrom_append, lineStartFrom, if_pos hchar, lineStartFrom,
      List.length_take]
    omega

/-- Each line that starts behind the place moves down with it. -/
theorem lineStartFrom_putLine (hplace : place ≤ cs.length) (hstarts : cs.StartsLine place) :
    lineStartFrom 0 0 (cs.putLine place line) =
        lineStartFrom 0 0 cs + (line.length + 1) ∧ place ≤ lineStartFrom 0 0 cs := by
  have htake := lineStartFrom_take hplace hstarts
  have hlength : (cs.take place ++ (line ++ [Cell.feed])).length = place + (line.length + 1) :=
    length_take_line hplace
  have hfront : lineStartFrom 0 0 (cs.take place ++ (line ++ [Cell.feed])) =
      place + (line.length + 1) := by
    rw [Guarded.lineStartFrom_append, htake, Guarded.lineStartFrom_append,
      lineStartFrom_of_single hsingle, lineStartFrom, if_pos (show Cell.feed.char = '\n' from rfl), lineStartFrom,
      List.length_take]
    omega
  have hsplit : lineStartFrom 0 0 cs = lineStartFrom place place (cs.drop place) := by
    conv_lhs => rw [← List.take_append_drop place cs, Guarded.lineStartFrom_append, htake,
      List.length_take, Nat.min_eq_left hplace, Nat.zero_add]
  have hle : ∀ (start pos : Nat) (ds : Cells), start ≤ pos → start ≤ lineStartFrom start pos ds := by
    intro start pos ds hpos
    rcases Guarded.cases_lineStartFrom start pos ds with ⟨heq, -⟩ | ⟨front, x, back, -, -, -, heq⟩
    · exact heq.ge
    · omega
  rw [hsplit, putLine, Guarded.lineStartFrom_append, hfront, hlength, Nat.zero_add]
  exact ⟨lineStartFrom_add place place _ _, hle place place _ le_rfl⟩

end Cells

/-- The span after a line of `bytes` bytes is put in at `start`. -/
def Span.makeRoom (start bytes : Nat) (s : Span) : Span where
  startByte := pushed start bytes s.startByte
  endByte := pushed start bytes s.endByte
  startLine := if s.startByte < start then s.startLine else s.startLine + 1
  startCol := s.startCol
  endLine := if s.endByte < start then s.endLine else s.endLine + 1
  endCol := s.endCol

namespace Source
namespace Text

/-- A blank line is put into the text between two of its lines. -/
structure AddsLine (place : Nat) (line : Cells) (t t' : Text) : Prop where
  blank : ∀ x ∈ line, x.isBlank = true
  single : ∀ x ∈ line, x.char ≠ '\n'
  starts : t.bare.StartsLine place
  starts_masked : t.masked.StartsLine place
  le : place ≤ t.bare.length
  bare : t'.bare = t.bare.putLine place line
  masked : t'.masked = t.masked.putLine place line
  depths_eq : t.depths = depthsFrom 0 t.bare
  depths_eq' : t'.depths = depthsFrom 0 t'.bare

/-- The place of an offset tells the line feeds before it and the start of its line. -/
theorem position_eq {S : Cells} {t : Text} (ht : Lined S t) (i : Nat) :
    t.lines.position i = (1 + LineIndex.feedsBefore t.bare i, i + 1 - t.lineStart i) := by
  have hfst : (t.lines.position i).1 = 1 + LineIndex.feedsBefore t.bare i := by
    rw [LineIndex.position, ht.starts_eq, LineIndex.locate_fst, Nat.sub_zero]
  obtain ⟨n, start, honline, hposition⟩ := LineIndex.exists_onLine t.lines i
  have hle := honline.le
  rw [hposition] at hfst
  rw [Text.lineStart, hposition, ← hfst]
  simp only [Prod.mk.injEq, true_and]
  omega

variable {S S' : Cells} {t t' : Text} {place : Nat} {line : Cells}

namespace AddsLine

variable (h : t.AddsLine place line t') (ht : Lined S t) (ht' : Lined S' t')
include h ht ht'

/-! ### Places of lines -/

theorem lineStart_of_ge {i : Nat} (hi : place ≤ i) :
    t'.lineStart (i + (line.length + 1)) = t.lineStart i + (line.length + 1) ∧
      place ≤ t.lineStart i := by
  have hle : place ≤ (t.bare.take i).length := by
    rw [List.length_take]
    exact Nat.le_min.mpr ⟨hi, h.le⟩
  have hstarts : Cells.StartsLine (t.bare.take i) place := by
    rcases h.starts with hzero | ⟨hpos, x, hx, hchar⟩
    · exact Or.inl hzero
    · exact Or.inr ⟨hpos, x, by rwa [List.getElem?_take_of_lt (by omega)], hchar⟩
  rw [Guarded.text_lineStart_eq ht, Guarded.text_lineStart_eq ht', h.bare,
    Cells.take_putLine_of_ge h.le hi]
  exact Cells.lineStartFrom_putLine h.single hle hstarts

omit ht in
/-- The line that is put in starts at the place. -/
theorem lineStart_line : t'.lineStart (place + line.length) = place := by
  rw [Guarded.text_lineStart_eq ht', h.bare, Cells.take_putLine_line h.le,
    Guarded.lineStartFrom_append, Cells.lineStartFrom_take h.le h.starts,
    Cells.lineStartFrom_of_single h.single]

theorem lineStart_of_lt {i : Nat} (hi : i < place) : t'.lineStart i = t.lineStart i := by
  rw [Guarded.text_lineStart_eq ht, Guarded.text_lineStart_eq ht', h.bare,
    Cells.take_putLine_of_le h.le hi.le]

/-- **A place keeps its column**, and its line is the next one if the blank line is above it. -/
theorem position (i : Nat) : t'.lines.position (pushed place (line.length + 1) i) =
    (if i < place then (t.lines.position i).1 else (t.lines.position i).1 + 1,
      (t.lines.position i).2) := by
  rw [position_eq ht, position_eq ht', pushed]
  split
  · rename_i hi
    rw [h.lineStart_of_lt ht ht' hi, LineIndex.feedsBefore, LineIndex.feedsBefore, h.bare,
      Cells.take_putLine_of_le h.le hi.le]
  · rename_i hi
    rw [(h.lineStart_of_ge ht ht' (by omega)).1, LineIndex.feedsBefore, LineIndex.feedsBefore, h.bare,
      Cells.take_putLine_of_ge h.le (by omega), Cells.countP_putLine h.single]
    simp only [Prod.mk.injEq]
    omega

theorem span (r : Extent) : t'.span (r.map (pushed place (line.length + 1))) =
    (t.span r).makeRoom place (line.length + 1) := by
  rw [Text.span, Text.span, LineIndex.span, LineIndex.span, Extent.map]
  simp only [h.position ht ht']
  rfl

/-- **The text is the same with its places pushed behind the line.** -/
theorem widens : t.Widens (pushed place (line.length + 1)) (Span.makeRoom place (line.length + 1)) t' := by
  have hfeed : ∀ {cs : Cells}, cs.Whole → cs.StartsLine place →
      place = 0 ∨ 0 < place ∧ cs[place - 1]? = some Cell.feed := by
    rintro cs hcs (hzero | ⟨hpos, ⟨c, lead⟩, hx, rfl⟩)
    · exact Or.inl hzero
    · have hlead := (hcs.isBoundary_of_ascii hx rfl).1
      rw [Cells.isBoundary, hx] at hlead
      obtain rfl : lead = true := hlead
      exact Or.inr ⟨hpos, hx⟩
  have hmasked : place ≤ t.masked.length := by
    rw [ht.masked.length_eq, ← ht.bare.length_eq]
    exact h.le
  have hlength : (t.bare.putLine place line).length = t.bare.length + (line.length + 1) :=
    Cells.length_putLine h.le
  refine ⟨strictMono_of_le_iff_le fun a b => Pragma.pushed_le_pushed_iff.symm, ?_, ?_, h.depths_eq,
    h.depths_eq', ?_, ?_, h.span ht ht'⟩
  · rw [h.bare]
    exact Cells.widens_putLine h.le h.blank (hfeed ht.bare.whole h.starts)
  · rw [h.masked]
    exact Cells.widens_putLine hmasked h.blank (hfeed ht.masked.whole h.starts_masked)
  · intro x hx
    rw [h.bare, pushed] at hx
    split at hx
    · cases hx
    · rename_i hzero
      rw [Cells.take_putLine_of_ge h.le (by omega), List.take_zero, Cells.putLine, List.take_nil,
        List.nil_append, List.drop_nil, List.append_nil] at hx
      exact Cells.blank_of_mem_line h.blank hx
  · rw [h.bare, hlength, pushed]
    split <;> omega

end AddsLine

/-! ### Attribute lines -/

/-- The attribute lines above the line that starts at `start`, if those below it are attribute lines
and `obsolete` tells whether one of them is `[Obsolete]`. -/
def attributesUp (t : Text) (floor start : Nat) (obsolete : Bool) : Nat × Bool :=
  if start ≤ floor then (start, obsolete)
  else attributeRun start obsolete ((t.bare.slice ⟨floor, start - 1⟩).lines floor).reverse

theorem attributes_eq_up (t : Text) (header floor : Nat) :
    t.attributes header floor = t.attributesUp floor (t.lineStart header) false := rfl

theorem attributesUp_of_le {t : Text} {floor start : Nat} (h : start ≤ floor) (obsolete : Bool) :
    t.attributesUp floor start obsolete = (start, obsolete) := if_pos h

/-- One line up. -/
theorem attributesUp_step (ht : Lined S t) {floor start : Nat} (hlt : floor < start)
    (hstart : start ≤ t.bare.length) (obsolete : Bool) :
    t.attributesUp floor start obsolete =
      let previous := max (t.lineStart (start - 1)) floor
      let above := t.bare.slice ⟨previous, start - 1⟩
      if isAttributeLine above then
        t.attributesUp floor previous (obsolete || isObsoleteAttribute above)
      else (start, obsolete) := by
  obtain ⟨-, -, hlines⟩ := Guarded.reverse_lines ht (show floor ≤ start - 1 by omega)
    (show start - 1 ≤ t.bare.length by omega)
  rw [attributesUp, if_neg (by omega), hlines, attributeRun]
  simp only [attributesUp]
  split
  · split <;> rfl
  · rfl

theorem attributesUp_le (ht : Lined S t) (floor : Nat) {start : Nat} (hstart : start ≤ t.bare.length)
    (obsolete : Bool) : (t.attributesUp floor start obsolete).1 ≤ start := by
  induction start using Nat.strong_induction_on generalizing obsolete with
  | h start ih =>
    by_cases hlt : floor < start
    · have hle := (Guarded.startsLine_lineStart ht (show start - 1 ≤ t.bare.length by omega)).2
      rw [attributesUp_step ht hlt hstart]
      simp only
      split
      · exact (ih _ (by omega) (by omega) _).trans (by omega)
      · exact le_rfl
    · rw [attributesUp_of_le (by omega)]

namespace AddsLine

variable (h : t.AddsLine place line t') (ht : Lined S t) (ht' : Lined S' t')
include h ht ht'

omit ht ht' in
theorem slice_of_ge {r : Extent} (hr : place ≤ r.start) (hle : r.start ≤ r.stop) :
    t'.bare.slice (r.map (pushed place (line.length + 1))) = t.bare.slice r := by
  rw [Extent.map, pushed, pushed, if_neg (by omega), if_neg (by omega), h.bare]
  exact Cells.slice_putLine_of_ge h.le hr

omit ht ht' in
/-- The line put in is no attribute line. -/
theorem isAttributeLine_line : isAttributeLine line = false := by
  have hnil : line.trimStart = [] := List.dropWhile_eq_nil_iff.mpr h.blank
  rw [isAttributeLine, hnil]
  rfl

omit ht in
/-- Above the place stands the line that was put in. -/
theorem above_place {floor : Nat} (hlt : floor < place) :
    max (t'.lineStart (place + (line.length + 1) - 1)) (pushed place (line.length + 1) floor) = place ∧
      t'.bare.slice ⟨place, place + (line.length + 1) - 1⟩ = line := by
  rw [Nat.add_succ_sub_one, h.lineStart_line ht', pushed, if_pos hlt, h.bare]
  exact ⟨by omega, Cells.slice_putLine_line h.le⟩

/-- Above a line further down stands the line that stood there before. -/
theorem above_of_lt {floor start : Nat} (hplace : place < start) (hlt : floor < start)
    (hstart : start ≤ t.bare.length) :
    let previous := max (t.lineStart (start - 1)) floor
    place ≤ previous ∧ previous ≤ start - 1 ∧
      max (t'.lineStart (start + (line.length + 1) - 1)) (pushed place (line.length + 1) floor) =
        previous + (line.length + 1) ∧
      t'.bare.slice ⟨previous + (line.length + 1), start + (line.length + 1) - 1⟩ =
        t.bare.slice ⟨previous, start - 1⟩ := by
  intro previous
  obtain ⟨hline, hbehind⟩ := h.lineStart_of_ge ht ht' (show place ≤ start - 1 by omega)
  obtain ⟨-, hle⟩ := Guarded.startsLine_lineStart ht (show start - 1 ≤ t.bare.length by omega)
  have hprevious : place ≤ previous := hbehind.trans (le_max_left ..)
  have hpush : ∀ {i : Nat}, place ≤ i →
      pushed place (line.length + 1) i = i + (line.length + 1) := fun hi => if_neg (by omega)
  have hle' : previous ≤ start - 1 := max_le hle (by omega)
  have hslice := h.slice_of_ge (r := ⟨previous, start - 1⟩) hprevious hle'
  rw [Extent.map, hpush hprevious, hpush (show place ≤ start - 1 by omega)] at hslice
  rw [show start + (line.length + 1) - 1 = start - 1 + (line.length + 1) by omega, hline,
    ← hpush hbehind, ← (h.widens ht ht').mono.monotone.map_max, hpush hprevious]
  exact ⟨hprevious, hle', rfl, hslice⟩

/-- **The search upwards** finds the same lines, down from the place: above it stands the line that
was put in. -/
theorem attributesUp {floor start : Nat} (hplace : place ≤ start) (hstart : start ≤ t.bare.length)
    (obsolete : Bool) :
    t'.attributesUp (pushed place (line.length + 1) floor) (start + (line.length + 1)) obsolete =
      ((t.attributesUp (max floor place) start obsolete).1 + (line.length + 1),
        (t.attributesUp (max floor place) start obsolete).2) := by
  have hlength : start + (line.length + 1) ≤ t'.bare.length := by
    rw [h.bare, Cells.length_putLine h.le]
    omega
  induction start using Nat.strong_induction_on generalizing obsolete with
  | h start ih =>
    by_cases hlt : floor < start
    · have hlt' : pushed place (line.length + 1) floor < start + (line.length + 1) := by
        grind [pushed]
      rw [attributesUp_step ht' hlt' hlength]
      rcases hplace.eq_or_lt with rfl | hbelow
      · obtain ⟨hprevious, habove⟩ := h.above_place ht' hlt
        rw [attributesUp_of_le (le_max_right ..)]
        simp only [hprevious, habove, h.isAttributeLine_line, Bool.false_eq_true, if_false]
      · obtain ⟨-, hbehind⟩ := h.lineStart_of_ge ht ht' (show place ≤ start - 1 by omega)
        obtain ⟨hprevious, hle, hmax, habove⟩ := h.above_of_lt ht ht' hbelow hlt hstart
        rw [attributesUp_step ht (max_lt hlt hbelow) hstart,
          show max (t.lineStart (start - 1)) (max floor place) = max (t.lineStart (start - 1)) floor by
            omega]
        simp only [hmax, habove]
        split
        · exact ih _ (by omega) hprevious (by omega) _ (by omega)
        · rfl
    · have hle : start + (line.length + 1) ≤ pushed place (line.length + 1) floor := by
        grind [pushed]
      rw [attributesUp_of_le hle, attributesUp_of_le ((not_lt.mp hlt).trans (le_max_left ..))]

/-- A search that ends below the place does not depend on what is above it. -/
theorem attributesUp_max {floor start : Nat} (hstart : start ≤ t.bare.length) (obsolete : Bool)
    (hresult : place ≤ (t.attributesUp floor start obsolete).1) :
    t.attributesUp (max floor place) start obsolete = t.attributesUp floor start obsolete := by
  induction start using Nat.strong_induction_on generalizing obsolete with
  | h start ih =>
    have hplace := hresult.trans (attributesUp_le ht floor hstart obsolete)
    by_cases hlt : floor < start
    · rw [attributesUp_step ht hlt hstart] at hresult ⊢
      simp only at hresult ⊢
      rcases hplace.eq_or_lt with rfl | hbelow
      · -- one line up the search would be above the place
        have hother : ¬ isAttributeLine (t.bare.slice
            ⟨max (t.lineStart (place - 1)) floor, place - 1⟩) = true := by
          intro hattribute
          rw [if_pos hattribute] at hresult
          obtain ⟨-, hle⟩ := Guarded.startsLine_lineStart ht
            (show place - 1 ≤ t.bare.length by omega)
          have hup := attributesUp_le ht floor
            (show max (t.lineStart (place - 1)) floor ≤ t.bare.length by omega)
          have := hresult.trans (hup _)
          omega
        rw [attributesUp_of_le (le_max_right ..), if_neg hother]
      · obtain ⟨-, hbehind⟩ := h.lineStart_of_ge ht ht' (show place ≤ start - 1 by omega)
        obtain ⟨-, hle⟩ := Guarded.startsLine_lineStart ht (show start - 1 ≤ t.bare.length by omega)
        rw [attributesUp_step ht (max_lt hlt hbelow) hstart,
          show max (t.lineStart (start - 1)) (max floor place) = max (t.lineStart (start - 1)) floor by
            omega]
        simp only
        split
        · rename_i hattribute
          rw [if_pos hattribute] at hresult
          exact ih _ (by omega) (by omega) _ hresult
        · rfl
    · rw [attributesUp_of_le (not_lt.mp hlt), attributesUp_of_le ((not_lt.mp hlt).trans (le_max_left ..))]

/-- **Attribute lines are read alike**, but not above the line that parts them from their header. -/
theorem readsAttributes : t.ReadsAttributes (pushed place (line.length + 1)) place t' := by
  intro header floor hfloor hheader
  obtain ⟨-, hle⟩ := Guarded.startsLine_lineStart ht hheader
  by_cases hlt : header < place
  · -- above the line nothing has changed
    have hup := attributesUp_le ht floor (hle.trans hheader) false
    have hslice : (t.bare.putLine place line).slice ⟨floor, t.lineStart header - 1⟩ =
        t.bare.slice ⟨floor, t.lineStart header - 1⟩ :=
      Cells.slice_putLine_of_le h.le (by simp only; omega)
    rw [if_neg (by omega), attributes_eq_up, attributes_eq_up, Prod.map, pushed, pushed, pushed,
      if_pos hlt, if_pos (by omega), if_pos (by omega), h.lineStart_of_lt ht ht' hlt,
      Text.attributesUp, h.bare, hslice]
    rfl
  · obtain ⟨hline, hbehind⟩ := h.lineStart_of_ge ht ht' (show place ≤ header by omega)
    have hsearch : t'.attributes (pushed place (line.length + 1) header)
        (pushed place (line.length + 1) floor) =
          ((t.attributes header (max floor place)).1 + (line.length + 1),
            (t.attributes header (max floor place)).2) := by
      rw [show pushed place (line.length + 1) header = header + (line.length + 1) from if_neg hlt,
        attributes_eq_up, hline]
      exact h.attributesUp ht ht' hbehind (hle.trans hheader) false
    rw [hsearch]
    by_cases hparted : (t.attributes header floor).1 < place
    · -- the search in the text passes the place, so the floor is above it
      have hmax : max floor place = place := by
        by_cases habove : t.lineStart header ≤ floor
        · rw [attributes_eq_up, attributesUp_of_le habove] at hparted
          omega
        · have := (attributes_cases t header floor).2.mpr (by omega)
          omega
      have hcut := (attributes_cases t header place).2.mpr hbehind
      rw [hmax, if_pos ⟨hparted, by omega⟩, Prod.map, pushed, if_neg (by omega)]
      rfl
    · have hsame : t.attributes header (max floor place) = t.attributes header floor :=
        h.attributesUp_max ht ht' (hle.trans hheader) false (by rw [← attributes_eq_up]; omega)
      rw [hsame, if_neg (by omega), Prod.map, pushed, if_neg (by omega)]
      rfl

end AddsLine
end Text
end Source
end TreeLint
