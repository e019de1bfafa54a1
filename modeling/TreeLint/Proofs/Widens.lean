/-
# Places in a text with lines put in

A text with blank lines put in has the places of the text itself, each pushed
behind the lines before it. Whoever reads the text from left to right finds the
same marks at the pushed places: a character, a closing bracket, the pieces
between separators, the ends of a text without the blanks around it. The blanks of
a line put in are passed over in one step, and everything else is read as before.

Key definitions: `Extent.map`, `Cells.Widens`.
Key theorems: `Cells.Widens.slice`, `Cells.Widens.findChar?`,
`Cells.Widens.parenEnd`, `Cells.Widens.piecesFrom`, `Cells.Widens.braceEnd`,
`Cells.Widens.leadingBlanks`, `Cells.Widens.trailingBlanks`.
-/
import Mathlib.Order.Monotone.Basic
import TreeLint.Proofs.Brackets
import TreeLint.Proofs.Spreads

namespace TreeLint

/-- The interval between the places to which the ends are moved. -/
def Extent.map (f : Nat → Nat) (r : Extent) : Extent := ⟨f r.start, f r.stop⟩

namespace Cells

/-- The second text has blanks put in behind some of the line feeds of the first one, which stands
at a place. Each place of the first text is pushed to one of the second, the place behind such a
line feed to the one behind the blanks. -/
inductive Widens (push : Nat → Nat) : Nat → Cells → Cells → Prop where
  | nil {pos : Nat} : Widens push pos [] []
  | cons {pos : Nat} (x : Cell) {cs ds : Cells} (hpush : push (pos + 1) = push pos + 1)
      (h : Widens push (pos + 1) cs ds) : Widens push pos (x :: cs) (x :: ds)
  | feed {pos : Nat} {line cs ds : Cells} (hline : ∀ x ∈ line, x.isBlank = true)
      (hpush : push (pos + 1) = push pos + 1 + line.length) (h : Widens push (pos + 1) cs ds) :
      Widens push pos (Cell.feed :: cs) (Cell.feed :: (line ++ ds))

variable {push push' : Nat → Nat} {pos pos' : Nat} {cs ds : Cells}

theorem Widens.spreads (h : Widens push pos cs ds) : cs.Spreads ds := by
  induction h with
  | nil => exact .nil
  | cons x _ _ ih => exact .cons x ih
  | feed hline _ _ ih => exact .feed hline ih

/-- Of the places only the distances count. -/
theorem Widens.rebase (h : Widens push pos cs ds)
    (hpush : ∀ i, push' (pos' + i) + push pos = push (pos + i) + push' pos') :
    Widens push' pos' cs ds := by
  induction h generalizing pos' with
  | nil => exact .nil
  | cons x hstep _ ih =>
    have hone := hpush 1
    refine .cons x (by omega) (ih fun i => ?_)
    have := hpush (1 + i)
    rw [← Nat.add_assoc, ← Nat.add_assoc] at this
    omega
  | feed hline hstep _ ih =>
    have hone := hpush 1
    refine .feed hline (by omega) (ih fun i => ?_)
    have := hpush (1 + i)
    rw [← Nat.add_assoc, ← Nat.add_assoc] at this
    omega

/-- Places are pushed like those behind the first byte, and by `n` bytes more. -/
def pushBehind (push : Nat → Nat) (n : Nat) : Nat → Nat
  | 0 => 0
  | i + 1 => push i + 1 + n

theorem strictMono_pushBehind {push : Nat → Nat} (h : StrictMono push) (n : Nat) :
    StrictMono (pushBehind push n) := by
  refine strictMono_nat_of_lt_succ fun i => ?_
  cases i with
  | zero =>
    simp only [pushBehind]
    omega
  | succ i => simpa [pushBehind] using h (Nat.lt_succ_self i)

/-- A text that is spread has its places pushed in some way. -/
theorem Spreads.exists_widens (h : cs.Spreads ds) :
    ∃ push, StrictMono push ∧ push 0 = 0 ∧ Widens push 0 cs ds := by
  induction h with
  | nil => exact ⟨id, strictMono_id, rfl, .nil⟩
  | @cons x cs ds _ ih =>
    obtain ⟨push, hmono, hzero, h⟩ := ih
    refine ⟨pushBehind push 0, strictMono_pushBehind hmono 0, rfl,
      .cons x (by simp [pushBehind, hzero]) (h.rebase fun i => ?_)⟩
    rw [Nat.zero_add, Nat.zero_add, Nat.add_comm 1 i]
    simp only [pushBehind, hzero]
  | @feed line cs ds hline _ ih =>
    obtain ⟨push, hmono, hzero, h⟩ := ih
    refine ⟨pushBehind push line.length, strictMono_pushBehind hmono line.length, rfl,
      .feed hline (by simp [pushBehind, hzero]) (h.rebase fun i => ?_)⟩
    rw [Nat.zero_add, Nat.zero_add, Nat.add_comm 1 i]
    simp only [pushBehind, hzero]
    omega

theorem Widens.push_length (h : Widens push pos cs ds) :
    push (pos + cs.length) = push pos + ds.length := by
  induction h with
  | nil => rfl
  | cons x hpush _ ih =>
    rw [List.length_cons, List.length_cons, ← Nat.add_assoc, Nat.add_right_comm, ih, hpush]
    omega
  | feed _ hpush _ ih =>
    rw [List.length_cons, List.length_cons, List.length_append, ← Nat.add_assoc,
      Nat.add_right_comm, ih, hpush]
    omega

/-! ### Parts -/

section Parts

variable (hmono : Monotone push)
include hmono

theorem Widens.drop (h : Widens push pos cs ds) (n : Nat) :
    Widens push (pos + n) (cs.drop n) (ds.drop (push (pos + n) - push pos)) := by
  induction h generalizing n with
  | nil => simpa using Widens.nil
  | @cons pos x cs ds hpush h ih =>
    cases n with
    | zero => simpa using Widens.cons x hpush h
    | succ n =>
      have hle := hmono (Nat.le_add_right (pos + 1) n)
      rw [show pos + (n + 1) = pos + 1 + n by omega,
        show push (pos + 1 + n) - push pos = push (pos + 1 + n) - push (pos + 1) + 1 by omega]
      exact ih n
  | @feed pos line cs ds hline hpush h ih =>
    cases n with
    | zero => simpa using Widens.feed hline hpush h
    | succ n =>
      have hle := hmono (Nat.le_add_right (pos + 1) n)
      rw [show pos + (n + 1) = pos + 1 + n by omega, show push (pos + 1 + n) - push pos =
        line.length + (push (pos + 1 + n) - push (pos + 1)) + 1 by omega, List.drop_succ_cons,
        List.drop_succ_cons, List.drop_length_add_append]
      exact ih n

theorem Widens.take (h : Widens push pos cs ds) (n : Nat) :
    Widens push pos (cs.take n) (ds.take (push (pos + n) - push pos)) := by
  induction h generalizing n with
  | nil => simpa using Widens.nil
  | @cons pos x cs ds hpush h ih =>
    cases n with
    | zero => simpa using Widens.nil
    | succ n =>
      have hle := hmono (Nat.le_add_right (pos + 1) n)
      rw [show pos + (n + 1) = pos + 1 + n by omega,
        show push (pos + 1 + n) - push pos = push (pos + 1 + n) - push (pos + 1) + 1 by omega]
      exact .cons x hpush (ih n)
  | @feed pos line cs ds hline hpush h ih =>
    cases n with
    | zero => simpa using Widens.nil
    | succ n =>
      have hle := hmono (Nat.le_add_right (pos + 1) n)
      rw [show pos + (n + 1) = pos + 1 + n by omega, show push (pos + 1 + n) - push pos =
        line.length + (push (pos + 1 + n) - push (pos + 1)) + 1 by omega, List.take_succ_cons,
        List.take_succ_cons, List.take_length_add_append]
      exact .feed hline hpush (ih n)

/-- **A part of the text is the part between the pushed places.** -/
theorem Widens.slice (h : Widens push pos cs ds) (a b : Nat) :
    Widens push (pos + a) (cs.slice ⟨a, b⟩)
      (ds.slice ⟨push (pos + a) - push pos, push (pos + b) - push pos⟩) := by
  have hle := hmono (Nat.le_add_right pos a)
  unfold Cells.slice
  simp only
  by_cases hlt : a ≤ b
  · have hpart := (h.drop hmono a).take hmono (b - a)
    rwa [show pos + a + (b - a) = pos + b by omega, show push (pos + b) - push (pos + a) =
      push (pos + b) - push pos - (push (pos + a) - push pos) by omega] at hpart
  · have hback := hmono (show pos + b ≤ pos + a by omega)
    rw [show b - a = 0 by omega, show push (pos + b) - push pos - (push (pos + a) - push pos) = 0
      by omega, List.take_zero, List.take_zero]
    exact .nil

end Parts

/-! ### Marks and brackets -/

theorem Widens.findChar? {c : Char} (hc : CharClass.isBlank c = false) (h : Widens push pos cs ds) :
    Cells.findChar? c (push pos) ds = (Cells.findChar? c pos cs).map push := by
  induction h with
  | nil => rfl
  | cons x hpush _ ih =>
    rw [Cells.findChar?, Cells.findChar?, ← hpush, ih]
    split <;> rfl
  | feed hline hpush _ ih =>
    have hfeed : ¬ Cell.feed.char = c := by
      rintro rfl
      cases hc
    rw [Cells.findChar?, Cells.findChar?, if_neg hfeed, if_neg hfeed,
      findChar?_append (char_ne_of_blank hline hc), ← hpush, ih]

theorem Widens.parenEnd (h : Widens push pos cs ds) (depth : Nat) :
    Source.parenEnd depth (push pos) ds = (Source.parenEnd depth pos cs).map push := by
  induction h generalizing depth with
  | nil => rfl
  | cons x hpush _ ih =>
    rw [Source.parenEnd, Source.parenEnd, ← hpush, ih, ih, ih]
    split
    · rfl
    · split
      · split <;> rfl
      · rfl
  | feed hline hpush _ ih =>
    have hskip := fun x hx =>
      And.intro (char_ne_of_blank hline (c := '(') rfl x hx) (char_ne_of_blank hline (c := ')') rfl x hx)
    rw [Source.parenEnd, Source.parenEnd, if_neg (by decide), if_neg (by decide),
      if_neg (by decide), if_neg (by decide), Source.parenEnd_skip hskip, ← hpush, ih]

theorem Widens.piecesFrom (h : Widens push pos cs ds) (depth start : Nat) :
    Source.piecesFrom depth (push start) (push pos) ds =
      (Source.piecesFrom depth start pos cs).map (Extent.map push) := by
  induction h generalizing depth start with
  | nil => rfl
  | cons x hpush _ ih =>
    rw [Source.piecesFrom, Source.piecesFrom, ← hpush, ih, ih, ih, ih]
    split
    · rfl
    · split
      · rfl
      · split <;> rfl
  | feed hline hpush _ ih =>
    have hne := fun {c : Char} => @char_ne_of_blank _ hline c
    have hneutral : ∀ x ∈ _, Source.Neutral x := fun x hx =>
      ⟨⟨hne rfl x hx, hne rfl x hx, hne rfl x hx, hne rfl x hx⟩, hne rfl x hx⟩
    rw [Source.piecesFrom, Source.piecesFrom, if_neg (by decide), if_neg (by decide),
      if_neg (by simp [Cell.feed]), if_neg (by decide), if_neg (by decide),
      if_neg (by simp [Cell.feed]), Source.piecesFrom_neutral hneutral, ← hpush, ih]

theorem Widens.segmentsFrom (h : Widens push pos cs ds) (start : Nat) :
    Source.segmentsFrom (push start) (push pos) ds =
      (Source.segmentsFrom start pos cs).map (Extent.map push) := by
  induction h generalizing start with
  | nil => rfl
  | cons x hpush _ ih =>
    rw [Source.segmentsFrom, Source.segmentsFrom, ← hpush, ih, ih]
    split <;> rfl
  | feed hline hpush _ ih =>
    rw [Source.segmentsFrom, Source.segmentsFrom, if_neg (by decide), if_neg (by decide),
      Source.segmentsFrom_skip (char_ne_of_blank hline rfl), ← hpush, ih]

/-! ### Depths of braces -/

section Depths

open Source (depthsFrom)

theorem depthsFrom_feed {line : Cells} (hline : ∀ x ∈ line, x.isBlank = true) (depth : Nat)
    (ds : Cells) :
    depthsFrom depth (Cell.feed :: (line ++ ds)) =
      depth :: (List.replicate line.length depth ++ depthsFrom depth ds) := by
  rw [depthsFrom, if_neg (by decide), if_neg (by decide), Source.depthsFrom_append]
  exact fun x hx => ⟨char_ne_of_blank hline rfl x hx, char_ne_of_blank hline rfl x hx⟩

theorem Widens.getElem?_depthsFrom (hmono : Monotone push) (h : Widens push pos cs ds)
    (depth i : Nat) (hi : i ≤ cs.length) :
    (depthsFrom depth ds)[push (pos + i) - push pos]? = (depthsFrom depth cs)[i]? := by
  induction h generalizing depth i with
  | nil =>
    obtain rfl : i = 0 := by simpa using hi
    simp
  | @cons pos x cs ds hpush _ ih =>
    cases i with
    | zero => simp [depthsFrom]
    | succ i =>
      have hle := hmono (Nat.le_add_right (pos + 1) i)
      rw [show pos + (i + 1) = pos + 1 + i by omega,
        show push (pos + 1 + i) - push pos = push (pos + 1 + i) - push (pos + 1) + 1 by omega,
        depthsFrom, depthsFrom, List.getElem?_cons_succ, List.getElem?_cons_succ]
      exact ih _ i (by simpa using hi)
  | @feed pos line cs ds hline hpush _ ih =>
    have hfirst := @depthsFrom_feed [] (by simp) depth cs
    rw [List.nil_append, List.length_nil, List.replicate_zero, List.nil_append] at hfirst
    rw [depthsFrom_feed hline, hfirst]
    cases i with
    | zero => simp
    | succ i =>
      have hle := hmono (Nat.le_add_right (pos + 1) i)
      rw [show pos + (i + 1) = pos + 1 + i by omega, show push (pos + 1 + i) - push pos =
        line.length + (push (pos + 1 + i) - push (pos + 1)) + 1 by omega,
        List.getElem?_cons_succ, List.getElem?_cons_succ,
        List.getElem?_append_right (by simp), List.length_replicate, Nat.add_sub_cancel_left]
      exact ih _ i (by simpa using hi)

theorem Widens.braceEnd (h : Widens push pos cs ds) (inner depth : Nat) :
    Source.braceEnd inner (push pos) ds (depthsFrom depth ds) =
      (Source.braceEnd inner pos cs (depthsFrom depth cs)).map push := by
  induction h generalizing depth with
  | nil => rfl
  | cons x hpush _ ih =>
    rw [depthsFrom, depthsFrom, Source.braceEnd, Source.braceEnd, ← hpush, ih]
    split <;> rfl
  | @feed pos line cs ds hline hpush _ ih =>
    have hfirst := @depthsFrom_feed [] (by simp) depth cs
    rw [List.nil_append, List.length_nil, List.replicate_zero, List.nil_append] at hfirst
    rw [depthsFrom_feed hline, hfirst, Source.braceEnd, Source.braceEnd, if_neg (by simp [Cell.feed]),
      if_neg (by simp [Cell.feed]), Source.braceEnd_append (char_ne_of_blank hline rfl), ← hpush, ih]

end Depths

/-! ### Blanks at the ends -/

theorem Widens.leadingBlanks (h : Widens push pos cs ds) :
    push (pos + Cells.leadingBlanks cs) = push pos + Cells.leadingBlanks ds := by
  induction h with
  | nil => rfl
  | @cons pos x cs ds hpush _ ih =>
    unfold Cells.leadingBlanks at ih ⊢
    by_cases hx : x.isBlank = true
    · rw [List.takeWhile_cons_of_pos hx, List.takeWhile_cons_of_pos hx, List.length_cons,
        List.length_cons, Nat.add_comm _ 1, ← Nat.add_assoc, ih, hpush]
      omega
    · rw [List.takeWhile_cons_of_neg hx, List.takeWhile_cons_of_neg hx]
      rfl
  | @feed pos line cs ds hline hpush _ ih =>
    unfold Cells.leadingBlanks at ih ⊢
    rw [List.takeWhile_cons_of_pos rfl, List.takeWhile_cons_of_pos rfl, List.length_cons,
      List.length_cons, List.takeWhile_append_of_pos hline, List.length_append, Nat.add_comm _ 1,
      ← Nat.add_assoc, ih, hpush]
    omega

theorem length_rdropWhile (cs : Cells) :
    (cs.rdropWhile Cell.isBlank).length = cs.length - Cells.trailingBlanks cs := by
  have hsum := congrArg List.length
    (List.takeWhile_append_dropWhile (p := Cell.isBlank) (l := cs.reverse))
  rw [List.length_append, List.length_reverse] at hsum
  rw [List.rdropWhile, List.length_reverse, Cells.trailingBlanks, Cells.leadingBlanks]
  omega

/-- Where a text that is not blank ends without the blanks behind it. -/
theorem Widens.trailingBlanks (h : Widens push pos cs ds) (hcs : Cells.isBlank cs = false) :
    push (pos + (cs.length - Cells.trailingBlanks cs)) =
      push pos + (ds.length - Cells.trailingBlanks ds) := by
  rw [← length_rdropWhile, ← length_rdropWhile]
  induction h with
  | nil => cases hcs
  | @cons pos x cs ds hpush h ih =>
    rw [TreeLint.Spreads.rdropWhile_cons, TreeLint.Spreads.rdropWhile_cons, h.spreads.all]
    split
    · rename_i hblank
      have hx : x.isBlank = false := by
        have hall : (x.isBlank && cs.all Cell.isBlank) = false := hcs
        rwa [hblank, Bool.and_true] at hall
      simpa [hx] using hpush
    · rename_i hblank
      have ih := ih (Bool.not_eq_true _ ▸ hblank)
      rw [List.length_cons, List.length_cons, Nat.add_comm _ 1, ← Nat.add_assoc, ih, hpush]
      omega
  | @feed pos line cs ds hline hpush h ih =>
    have hcs : cs.all Cell.isBlank = false := hcs
    have hds : ds.all Cell.isBlank = false := by rw [h.spreads.all, hcs]
    rw [TreeLint.Spreads.rdropWhile_cons, TreeLint.Spreads.rdropWhile_cons, if_neg (by simp [hcs]),
      if_neg (by simp [hds]), TreeLint.Spreads.rdropWhile_append line hds, List.length_cons,
      List.length_cons, List.length_append, Nat.add_comm _ 1, ← Nat.add_assoc, ih hcs, hpush]
    omega

end Cells
end TreeLint
