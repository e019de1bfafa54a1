/-
# Nested brackets and closed quotes

Parentheses and square brackets are properly nested when each is closed by its
own closing bracket, innermost first (`Cells.nests`). What stands between the two
brackets of a pair is then balanced, the count of parentheses alone finds the
closing one, and the split at commas does not cut a pair of brackets.

A quoted name ends at the next quote or at the end of its line, and its contents
are blanked. If every quote is closed on its line (`Cells.quotesClosed`), the
blanked text falls into code and pairs of quotes with nothing but blanks between
them (`Cells.Tidy`).

Key definitions: `Cells.nests`, `Cells.Balanced`, `Cells.quotesClosed`,
`Cells.Tidy`.
Key theorems: `Source.exists_match`, `Source.exists_piece`, `Source.tidy_bare`.
-/
import TreeLint.Proofs.Pieces

namespace TreeLint
namespace Cells

/-! ### Brackets -/

/-- Parentheses and square brackets are closed in the order in which it has to be; the stack holds
the closing brackets that are still to come. -/
def nests : List Char → Cells → Bool
  | stack, [] => stack.isEmpty
  | stack, x :: xs =>
    if x.char = '(' then nests (')' :: stack) xs
    else if x.char = '[' then nests (']' :: stack) xs
    else if x.char = ')' ∨ x.char = ']' then
      match stack with
      | k :: stack => x.char == k && nests stack xs
      | [] => false
    else nests stack xs

/-- Every quote has another one behind it on its line that closes it; `inside` tells whether one is
open. -/
def quotesClosed : Bool → Cells → Bool
  | inside, [] => !inside
  | inside, x :: xs =>
    if x.char = '"' then quotesClosed (!inside) xs
    else if x.char = '\n' then !inside && quotesClosed false xs
    else quotesClosed inside xs

/-- The byte is no bracket. -/
def NoBracket (x : Cell) : Prop :=
  x.char ≠ '(' ∧ x.char ≠ ')' ∧ x.char ≠ '[' ∧ x.char ≠ ']'

/-- The two bytes are a pair of brackets. -/
def Pair (x y : Cell) : Prop := x.char = '(' ∧ y.char = ')' ∨ x.char = '[' ∧ y.char = ']'

/-- A text in which brackets come in pairs, one within the other or one behind the other. -/
inductive Balanced : Cells → Prop
  | nil : Balanced []
  | other {x : Cell} {xs : Cells} : NoBracket x → Balanced xs → Balanced (x :: xs)
  | group {x y : Cell} {xs ys : Cells} : Pair x y → Balanced xs → Balanced ys →
      Balanced (x :: (xs ++ y :: ys))

theorem nests_other {stack : List Char} {x : Cell} (hx : NoBracket x) (xs : Cells) :
    nests stack (x :: xs) = nests stack xs := by
  obtain ⟨h₁, h₂, h₃, h₄⟩ := hx
  rw [nests.eq_def]
  simp [h₁, h₂, h₃, h₄]

theorem nests_group {stack : List Char} {x y : Cell} (h : Pair x y) (xs : Cells) :
    nests stack (x :: xs) = nests (y.char :: stack) xs := by
  rcases h with ⟨hx, hy⟩ | ⟨hx, hy⟩ <;> simp [nests.eq_def _ (x :: xs), hx, hy]

/-- **What the top of the stack waits for comes**, with a balanced text before it. -/
theorem exists_closer {k : Char} {stack : List Char} {cs : Cells} (h : nests (k :: stack) cs = true) :
    ∃ mid y post, cs = mid ++ y :: post ∧ y.char = k ∧ Balanced mid ∧ nests stack post = true := by
  -- on the length: an inner pair of brackets leaves a shorter text with the same stack
  induction hn : cs.length using Nat.strong_induction_on generalizing k stack cs with
  | _ n ih =>
    cases cs with
    | nil => simp [nests] at h
    | cons x xs =>
      have hpair : ∀ {j : Char}, (∀ y : Cell, y.char = j → Pair x y) →
          nests (j :: k :: stack) xs = true →
          ∃ mid y post, x :: xs = mid ++ y :: post ∧ y.char = k ∧ Balanced mid ∧
            nests stack post = true := by
        intro j hj hnests
        simp only [List.length_cons] at hn
        obtain ⟨inner, y, rest, hxs, hy, hinner, hrest⟩ := ih xs.length (by omega) hnests rfl
        have hlength : rest.length < xs.length := by
          rw [hxs, List.length_append, List.length_cons]
          omega
        obtain ⟨mid, z, post, hrest', hz, hmid, hpost⟩ := ih rest.length (by omega) hrest rfl
        refine ⟨x :: (inner ++ y :: mid), z, post, ?_, hz, .group (hj y hy) hinner hmid, hpost⟩
        rw [hxs, hrest']
        simp
      rw [nests.eq_def] at h
      simp only at h
      split at h
      · rename_i hx
        exact hpair (fun y hy => Or.inl ⟨hx, hy⟩) h
      · split at h
        · rename_i hx
          exact hpair (fun y hy => Or.inr ⟨hx, hy⟩) h
        · rename_i hx₁ hx₂
          split at h
          · obtain ⟨hx, hnests⟩ := Bool.and_eq_true_iff.mp h
            exact ⟨[], x, xs, rfl, by simpa using hx, .nil, hnests⟩
          · rename_i hx
            obtain ⟨hx₃, hx₄⟩ := not_or.mp hx
            simp only [List.length_cons] at hn
            obtain ⟨mid, y, post, hxs, hy, hmid, hpost⟩ := ih xs.length (by omega) h rfl
            exact ⟨x :: mid, y, post, by rw [hxs]; rfl, hy, .other ⟨hx₁, hx₃, hx₂, hx₄⟩ hmid, hpost⟩

theorem nests_of_append {stack : List Char} {pre cs : Cells} (h : nests stack (pre ++ cs) = true) :
    ∃ stack', nests stack' cs = true := by
  induction pre generalizing stack with
  | nil => exact ⟨stack, h⟩
  | cons x xs ih =>
    rw [List.cons_append, nests.eq_def] at h
    simp only at h
    split at h
    · exact ih h
    · split at h
      · exact ih h
      · split at h
        · split at h
          · exact ih (Bool.and_eq_true_iff.mp h).2
          · cases h
        · exact ih h

theorem balanced_of_noBracket {mid : Cells} (h : ∀ x ∈ mid, NoBracket x) : Balanced mid := by
  induction mid with
  | nil => exact .nil
  | cons x mid ih =>
    exact .other (h x List.mem_cons_self) (ih fun y hy => h y (List.mem_cons_of_mem x hy))

theorem Balanced.nests_append {mid : Cells} (h : Balanced mid) (stack : List Char) (rest : Cells) :
    nests stack (mid ++ rest) = nests stack rest := by
  induction h generalizing stack rest with
  | nil => rfl
  | other hx _ ih => rw [List.cons_append, nests_other hx, ih]
  | @group x y xs ys hpair _ _ ihx ihy =>
    have hclose : nests (y.char :: stack) (y :: (ys ++ rest)) = nests stack (ys ++ rest) := by
      rcases hpair with ⟨-, hy⟩ | ⟨-, hy⟩ <;> simp [nests.eq_def _ (y :: _), hy]
    rw [List.cons_append, List.append_assoc, nests_group hpair, ihx, List.cons_append, hclose, ihy]

theorem Balanced.nests {mid : Cells} (h : Balanced mid) : nests [] mid = true := by
  have := h.nests_append [] []
  rw [List.append_nil] at this
  rw [this]
  rfl

/-! ### Cutting at offsets -/

theorem slice_append (cs : Cells) {a b c : Nat} (hab : a ≤ b) (hbc : b ≤ c) :
    cs.slice ⟨a, b⟩ ++ cs.slice ⟨b, c⟩ = cs.slice ⟨a, c⟩ := by
  unfold slice
  simp only
  rw [show c - a = (b - a) + (c - b) by omega, List.take_add, List.drop_drop,
    show a + (b - a) = b by omega]

theorem mem_slice {cs : Cells} {r : Extent} {k : Nat} {x : Cell} (hx : cs[k]? = some x)
    (hstart : r.start ≤ k) (hstop : k < r.stop) : x ∈ cs.slice r := by
  rw [List.mem_iff_getElem?]
  refine ⟨k - r.start, ?_⟩
  rw [getElem?_slice, show r.start + (k - r.start) = k by omega, if_pos hstop]
  exact hx

theorem exists_of_mem_slice {cs : Cells} {r : Extent} {x : Cell} (h : x ∈ cs.slice r) :
    ∃ k, r.start ≤ k ∧ k < r.stop ∧ cs[k]? = some x := by
  obtain ⟨k, hk⟩ := List.mem_iff_getElem?.mp h
  rw [getElem?_slice] at hk
  split at hk
  · exact ⟨r.start + k, by omega, by assumption, hk⟩
  · cases hk

theorem slice_cons {cs : Cells} {i stop : Nat} {x : Cell} (hx : cs[i]? = some x) (hlt : i < stop) :
    cs.slice ⟨i, stop⟩ = x :: cs.slice ⟨i + 1, stop⟩ := by
  obtain ⟨hi, hxi⟩ := List.getElem?_eq_some_iff.mp hx
  unfold slice
  simp only
  rw [List.drop_eq_getElem_cons hi, hxi, show stop - i = stop - (i + 1) + 1 by omega, List.take_succ_cons]

theorem slice_eq_append {cs : Cells} {i stop : Nat} {mid post : Cells} {y : Cell}
    (hstop : stop ≤ cs.length) (hle : i ≤ stop) (h : cs.slice ⟨i, stop⟩ = mid ++ y :: post) :
    mid = cs.slice ⟨i, i + mid.length⟩ ∧ cs[i + mid.length]? = some y ∧
      post = cs.slice ⟨i + mid.length + 1, stop⟩ ∧ i + mid.length < stop := by
  have hlength : (cs.slice ⟨i, stop⟩).length = stop - i := length_slice hstop
  have hlt : i + mid.length < stop := by
    rw [h, List.length_append, List.length_cons] at hlength
    omega
  have hsplit := slice_append cs (a := i) (b := i + mid.length) (c := stop) (by omega) hlt.le
  have hfirst : (cs.slice ⟨i, i + mid.length⟩).length = mid.length := by
    rw [length_slice (by simp only; omega)]
    simp
  obtain ⟨hmid, hrest⟩ := List.append_inj (hsplit.trans h) hfirst
  have hy : cs[i + mid.length]? = some y := by
    have := getElem?_slice cs ⟨i + mid.length, stop⟩ 0
    rw [hrest, if_pos (by simpa using hlt)] at this
    simpa using this.symm
  refine ⟨hmid.symm, hy, ?_, hlt⟩
  rw [slice_cons hy hlt] at hrest
  exact (List.cons.inj hrest).2.symm

end Cells

namespace Source

open Cells

/-! ### Matching parentheses -/

/-- Within open parentheses a balanced text does not close any of them. -/
theorem parenEnd_append {mid : Cells} (h : Balanced mid) {depth : Nat} (hdepth : 0 < depth)
    (pos : Nat) (rest : Cells) :
    parenEnd depth pos (mid ++ rest) = parenEnd depth (pos + mid.length) rest := by
  induction h generalizing depth pos rest with
  | nil => rfl
  | @other x xs hx _ ih =>
    obtain ⟨h₁, h₂, -, -⟩ := hx
    rw [List.cons_append, parenEnd, if_neg h₁, if_neg h₂, ih hdepth, List.length_cons]
    congr 1
    omega
  | @group x y xs ys hpair _ _ ihx ihy =>
    have hlength : pos + (x :: (xs ++ y :: ys)).length = pos + 1 + xs.length + 1 + ys.length := by
      simp only [List.length_cons, List.length_append]
      omega
    rw [hlength, List.cons_append, List.append_assoc, List.cons_append, parenEnd]
    rcases hpair with ⟨hx, hy⟩ | ⟨hx, hy⟩
    · rw [if_pos hx, ihx (by omega), parenEnd, hy, if_neg (by decide), if_pos rfl,
        if_neg (by omega), Nat.add_sub_cancel, ihy hdepth]
    · rw [hx, if_neg (by decide), if_neg (by decide), ihx hdepth, parenEnd, hy,
        if_neg (by decide), if_neg (by decide), ihy hdepth]

theorem closingParen?_append (before : Option Cell) (pos : Nat) {mid : Cells} (h : Balanced mid)
    (rest : Cells) :
    closingParen? ⟨before, pos, ⟨'(', true⟩ :: (mid ++ (⟨')', true⟩ :: rest))⟩ =
      some (pos + 1 + mid.length) := by
  rw [closingParen?, parenEnd, if_pos rfl, parenEnd_append h (by omega), parenEnd,
    if_neg (by decide), if_pos rfl, if_pos (by omega)]

variable {cs : Cells} {lo hi stop k : Nat}

/-- **In a nested text an opening parenthesis has a closing one**, with a balanced text between
them, and counting finds it, however far the text goes on. -/
theorem exists_match (hhi : hi ≤ stop) (hstop : stop ≤ cs.length)
    (hnests : nests [] (cs.slice ⟨lo, hi⟩) = true) (hlo : lo ≤ k) (hk : k < hi) {x : Cell}
    (hx : cs[k]? = some x) (hxchar : x.char = '(') :
    ∃ close, k < close ∧ close < hi ∧ Balanced (cs.slice ⟨k + 1, close⟩) ∧
      parenEnd 0 k (cs.slice ⟨k, stop⟩) = some close := by
  rw [← slice_append cs hlo hk.le] at hnests
  obtain ⟨stack, hnests'⟩ := nests_of_append hnests
  rw [slice_cons hx hk, nests_group (y := ⟨')', true⟩) (Or.inl ⟨hxchar, rfl⟩)] at hnests'
  obtain ⟨mid, y, post, hsplit, hy, hmid, -⟩ := exists_closer hnests'
  obtain ⟨hmid', hclose, -, hlt⟩ := slice_eq_append (hhi.trans hstop) hk hsplit
  refine ⟨k + 1 + mid.length, by omega, hlt, hmid' ▸ hmid, ?_⟩
  rw [slice_cons hx (by omega), parenEnd, if_pos hxchar,
    ← slice_append cs (a := k + 1) (b := k + 1 + mid.length) (by omega) (by omega), ← hmid',
    parenEnd_append hmid (by omega), slice_cons hclose (by omega), parenEnd, hy,
    if_neg (by decide), if_pos rfl, if_pos (by omega)]

/-! ### Pieces -/

/-- Within brackets a balanced text has no comma to cut at. -/
theorem piecesFrom_append {mid : Cells} (h : Balanced mid) {depth : Nat} (hdepth : 0 < depth)
    (start pos : Nat) (rest : Cells) :
    piecesFrom depth start pos (mid ++ rest) = piecesFrom depth start (pos + mid.length) rest := by
  induction h generalizing depth pos rest with
  | nil => rfl
  | @other x xs hx _ ih =>
    obtain ⟨h₁, h₂, h₃, h₄⟩ := hx
    rw [List.cons_append, piecesFrom, if_neg (by simp [h₁, h₃]), if_neg (by simp [h₂, h₄]),
      if_neg (by omega), ih hdepth, List.length_cons]
    congr 1
    omega
  | @group x y xs ys hpair _ _ ihx ihy =>
    have hopen : x.char = '(' ∨ x.char = '[' := hpair.imp And.left And.left
    have hclose : y.char = ')' ∨ y.char = ']' := hpair.imp And.right And.right
    have hne : ¬ (y.char = '(' ∨ y.char = '[') := by
      rcases hclose with hy | hy <;> rw [hy] <;> decide
    have hlength : pos + (x :: (xs ++ y :: ys)).length = pos + 1 + xs.length + 1 + ys.length := by
      simp only [List.length_cons, List.length_append]
      omega
    rw [hlength, List.cons_append, List.append_assoc, List.cons_append, piecesFrom, if_pos hopen,
      ihx (by omega), piecesFrom, if_neg hne, if_pos hclose, Nat.add_sub_cancel, ihy hdepth]

/-- The byte neither opens nor closes nor separates. -/
def Neutral (x : Cell) : Prop := NoBracket x ∧ x.char ≠ ','

theorem piecesFrom_neutral {head : Cells} (h : ∀ x ∈ head, Neutral x) (depth start pos : Nat)
    (rest : Cells) :
    piecesFrom depth start pos (head ++ rest) =
      piecesFrom depth start (pos + head.length) rest := by
  induction head generalizing pos with
  | nil => rfl
  | cons x xs ih =>
    obtain ⟨⟨h₁, h₂, h₃, h₄⟩, h₅⟩ := h x List.mem_cons_self
    rw [List.cons_append, piecesFrom, if_neg (by simp [h₁, h₃]), if_neg (by simp [h₂, h₄]),
      if_neg (by simp [h₅]), ih fun y hy => h y (List.mem_cons_of_mem _ hy), List.length_cons]
    congr 1
    omega

theorem piecesFrom_call {head mid : Cells} {x y : Cell} (hhead : ∀ z ∈ head, Neutral z)
    (hx : x.char = '(') (hmid : Balanced mid) (hy : y.char = ')') (depth start pos : Nat)
    (rest : Cells) :
    piecesFrom depth start pos (head ++ x :: (mid ++ y :: rest)) =
      piecesFrom depth start (pos + (head.length + mid.length + 2)) rest := by
  have hlength : pos + (head.length + mid.length + 2) = pos + head.length + 1 + mid.length + 1 := by
    omega
  rw [hlength, piecesFrom_neutral hhead, piecesFrom, if_pos (Or.inl hx),
    piecesFrom_append hmid (by omega), piecesFrom, hy, if_neg (by decide), if_pos (Or.inl rfl),
    Nat.add_sub_cancel]

theorem exists_first_piece (depth start pos : Nat) (rest : Cells) :
    ∃ p ∈ piecesFrom depth start pos rest, p.start = start ∧ pos ≤ p.stop := by
  induction rest generalizing depth pos with
  | nil => exact ⟨_, List.mem_cons_self, rfl, le_rfl⟩
  | cons x xs ih =>
    have hgo : ∀ depth', ∃ p ∈ piecesFrom depth' start (pos + 1) xs, p.start = start ∧ pos ≤ p.stop := by
      intro depth'
      obtain ⟨p, hp, hstart, hstop⟩ := ih depth' (pos + 1)
      exact ⟨p, hp, hstart, by omega⟩
    rw [piecesFrom]
    split
    · exact hgo _
    · split
      · exact hgo _
      · split
        · exact ⟨_, List.mem_cons_self, rfl, le_rfl⟩
        · exact hgo _

theorem exists_covering_piece {core post : Cells}
    (hcore : ∀ depth start pos, piecesFrom depth start pos (core ++ post) =
      piecesFrom depth start (pos + core.length) post) (pre : Cells) (depth start pos : Nat)
    (hle : start ≤ pos) :
    ∃ p ∈ piecesFrom depth start pos (pre ++ (core ++ post)),
      p.start ≤ pos + pre.length ∧ pos + pre.length + core.length ≤ p.stop := by
  induction pre generalizing depth start pos with
  | nil =>
    rw [List.nil_append, hcore]
    obtain ⟨p, hp, hstart, hstop⟩ := exists_first_piece depth start (pos + core.length) post
    exact ⟨p, hp, by simp only [List.length_nil]; omega, by simp only [List.length_nil]; omega⟩
  | cons x xs ih =>
    have hgo : ∀ depth' start', start' ≤ pos + 1 →
        ∃ p ∈ piecesFrom depth' start' (pos + 1) (xs ++ (core ++ post)),
          p.start ≤ pos + (x :: xs).length ∧ pos + (x :: xs).length + core.length ≤ p.stop := by
      intro depth' start' hle'
      obtain ⟨p, hp, hstart, hstop⟩ := ih depth' start' (pos + 1) hle'
      exact ⟨p, hp, by simp only [List.length_cons]; omega, by simp only [List.length_cons]; omega⟩
    rw [List.cons_append, piecesFrom]
    split
    · exact hgo _ _ (by omega)
    · split
      · exact hgo _ _ (by omega)
      · split
        · obtain ⟨p, hp, hbounds⟩ := hgo 0 (pos + 1) le_rfl
          exact ⟨p, List.mem_cons_of_mem _ hp, hbounds⟩
        · exact hgo _ _ (by omega)

/-- **A call lies in one piece of the text around it.** -/
theorem exists_piece {r : Extent} {start opening close : Nat} (hstop : r.stop ≤ cs.length)
    (hr : r.start ≤ start) (hle : start ≤ opening) (hlt : opening < close) (hclose : close < r.stop)
    (hhead : cs.Each start opening Neutral) {x y : Cell} (hx : cs[opening]? = some x)
    (hxchar : x.char = '(') (hmid : Balanced (cs.slice ⟨opening + 1, close⟩))
    (hy : cs[close]? = some y) (hychar : y.char = ')') :
    ∃ p ∈ piecesFrom 0 r.start r.start (cs.slice r), p.start ≤ start ∧ close < p.stop := by
  have hneutral : ∀ z ∈ cs.slice ⟨start, opening⟩, Neutral z := by
    intro z hz
    obtain ⟨k, hk, hlt', hzk⟩ := exists_of_mem_slice hz
    obtain ⟨z', hz', hn⟩ := hhead k hk hlt'
    obtain rfl := Option.some.inj (hzk.symm.trans hz')
    exact hn
  have hlength : (cs.slice ⟨start, opening⟩).length = opening - start :=
    length_slice (by simp only; omega)
  have hlength' : (cs.slice ⟨opening + 1, close⟩).length = close - (opening + 1) :=
    length_slice (by simp only; omega)
  have hpre : (cs.slice ⟨r.start, start⟩).length = start - r.start :=
    length_slice (by simp only; omega)
  -- the text before the call, the call, and the text behind it
  have hsplit : cs.slice r = cs.slice ⟨r.start, start⟩ ++
      ((cs.slice ⟨start, opening⟩ ++ x :: (cs.slice ⟨opening + 1, close⟩ ++ [y])) ++
        cs.slice ⟨close + 1, r.stop⟩) := by
    have h₁ := slice_append cs (a := r.start) (b := start) (c := r.stop) hr (by omega)
    have h₂ := slice_append cs (a := start) (b := opening) (c := r.stop) hle (by omega)
    have h₃ := slice_append cs (a := opening + 1) (b := close) (c := r.stop) (by omega) (by omega)
    rw [slice_cons hy hclose] at h₃
    rw [slice_cons hx (by omega), ← h₃] at h₂
    rw [← h₂] at h₁
    rw [← h₁]
    simp
  have hcore : ∀ depth start' pos,
      piecesFrom depth start' pos
        ((cs.slice ⟨start, opening⟩ ++ x :: (cs.slice ⟨opening + 1, close⟩ ++ [y])) ++
          cs.slice ⟨close + 1, r.stop⟩) =
      piecesFrom depth start' (pos + (cs.slice ⟨start, opening⟩ ++
        x :: (cs.slice ⟨opening + 1, close⟩ ++ [y])).length) (cs.slice ⟨close + 1, r.stop⟩) := by
    intro depth start' pos
    have := piecesFrom_call hneutral hxchar hmid hychar depth start' pos
      (cs.slice ⟨close + 1, r.stop⟩)
    simp only [List.append_assoc, List.cons_append, List.nil_append, List.length_append,
      List.length_cons, List.length_nil] at this ⊢
    rw [this]
    congr 1
  obtain ⟨p, hp, hstart, hstop'⟩ := exists_covering_piece hcore (cs.slice ⟨r.start, start⟩) 0
    r.start r.start le_rfl
  rw [← hsplit] at hp
  simp only [List.length_append, List.length_cons, List.length_nil, hlength, hlength', hpre]
    at hstart hstop'
  exact ⟨p, hp, by omega, by omega⟩

end Source

namespace Cells

/-! ### Quotes -/

/-- From a quote to the next one, or to the end of the line, there are only blanks. -/
def Hushed : Bool → Cells → Prop
  | _, [] => True
  | inside, x :: xs =>
    if x.char = '"' then Hushed (!inside) xs
    else if x.char = '\n' then Hushed false xs
    else (inside = true → x.isBlank = true) ∧ Hushed inside xs

/-- The text is code, in which quotes come in pairs with nothing but blanks between them. -/
def Tidy : Bool → Cells → Prop
  | inside, [] => inside = false
  | inside, x :: xs =>
    if x.char = '"' then Tidy (!inside) xs
    else (inside = true → x.isBlank = true) ∧ Tidy inside xs

variable {cs ds : Cells} {inside : Bool}

theorem Hushed.left (h : Hushed inside (cs ++ ds)) : Hushed inside cs := by
  induction cs generalizing inside with
  | nil => trivial
  | cons x xs ih =>
    rw [List.cons_append, Hushed] at h
    rw [Hushed]
    split
    · rename_i hx
      rw [if_pos hx] at h
      exact ih h
    · rename_i hx
      rw [if_neg hx] at h
      split
      · rename_i hx'
        rw [if_pos hx'] at h
        exact ih h
      · rename_i hx'
        rw [if_neg hx'] at h
        exact ⟨h.1, ih h.2⟩

theorem Hushed.right (h : Hushed inside (cs ++ ds)) : ∃ inside', Hushed inside' ds := by
  induction cs generalizing inside with
  | nil => exact ⟨inside, h⟩
  | cons x xs ih =>
    rw [List.cons_append, Hushed] at h
    split at h
    · exact ih h
    · split at h
      · exact ih h
      · exact ih h.2

theorem Hushed.tidy (h : Hushed inside cs) (hclosed : quotesClosed inside cs = true) :
    Tidy inside cs := by
  induction cs generalizing inside with
  | nil => simpa [quotesClosed, Tidy] using hclosed
  | cons x xs ih =>
    rw [Hushed] at h
    rw [quotesClosed] at hclosed
    rw [Tidy]
    by_cases hx : x.char = '"'
    · rw [if_pos hx] at h hclosed ⊢
      exact ih h hclosed
    · rw [if_neg hx] at h hclosed ⊢
      by_cases hx' : x.char = '\n'
      · rw [if_pos hx'] at h hclosed
        obtain ⟨hinside, hclosed⟩ := Bool.and_eq_true_iff.mp hclosed
        obtain rfl : inside = false := by simpa using hinside
        exact ⟨nofun, ih h hclosed⟩
      · rw [if_neg hx'] at h hclosed
        exact ⟨h.1, ih h.2 hclosed⟩

theorem Tidy.right (h : Tidy inside (cs ++ ds)) : ∃ inside', Tidy inside' ds := by
  induction cs generalizing inside with
  | nil => exact ⟨inside, h⟩
  | cons x xs ih =>
    rw [List.cons_append, Tidy] at h
    split at h
    · exact ih h
    · exact ih h.2

/-- Without a quote nothing changes. -/
theorem Tidy.skip (h : Tidy inside (cs ++ ds)) (hcs : ∀ x ∈ cs, x.char ≠ '"') :
    (inside = true → ∀ x ∈ cs, x.isBlank = true) ∧ Tidy inside ds := by
  induction cs with
  | nil => exact ⟨fun _ => nofun, h⟩
  | cons x xs ih =>
    rw [List.cons_append, Tidy, if_neg (hcs x List.mem_cons_self)] at h
    obtain ⟨hrest, hds⟩ := ih h.2 fun y hy => hcs y (List.mem_cons_of_mem _ hy)
    refine ⟨fun hinside y hy => ?_, hds⟩
    rcases List.mem_cons.mp hy with rfl | hy
    · exact h.1 hinside
    · exact hrest hinside y hy

/-- **Within quotes come blanks and then the closing quote.** -/
theorem Tidy.exists_quote (h : Tidy true cs) :
    ∃ mid y post, cs = mid ++ y :: post ∧ y.char = '"' ∧ (∀ x ∈ mid, x.isBlank = true) := by
  induction cs with
  | nil => cases h
  | cons x xs ih =>
    rw [Tidy] at h
    split at h
    · rename_i hx
      exact ⟨[], x, xs, rfl, hx, nofun⟩
    · obtain ⟨mid, y, post, hxs, hy, hmid⟩ := ih h.2
      refine ⟨x :: mid, y, post, by rw [hxs]; rfl, hy, fun z hz => ?_⟩
      rcases List.mem_cons.mp hz with rfl | hz
      · exact h.1 rfl
      · exact hmid z hz

end Cells

namespace Source

open Cells

/-- A byte of code is within quotes only if it ends them, and a quote among the code goes in or
out. -/
theorem maskStep_code {s : MaskState} {c : Char} {next : Option Char}
    (h : (maskStep s c next).1 = .code) :
    (c = '"' → ((maskStep s c next).2 == .name) = !(s == .name)) ∧
      (c ≠ '"' → ((maskStep s c next).2 == .name) = false) ∧
      (c ≠ '"' → c ≠ '\n' → (s == .name) = false) := by
  cases s <;> grind [maskStep]

/-- A blanked byte leaves the scanner within quotes or outside them, and a line feed within quotes
is not blanked. -/
theorem maskStep_covered {s : MaskState} {c : Char} {next : Option Char}
    (h : (maskStep s c next).1 ≠ .code) :
    ((maskStep s c next).2 == .name) = (s == .name) ∧ (c = '\n' → (s == .name) = false) := by
  cases s <;> grind [maskStep]

/-- **The blanked copy is blank within quotes.** -/
theorem hushed_coveredFrom (s : MaskState) (cs : Cells) :
    Hushed (s == .name) (coveredFrom (· != .code) s cs) := by
  induction cs generalizing s with
  | nil => trivial
  | cons c cs ih =>
    rw [coveredFrom_cons]
    have hnext := ih (maskStep s c.char (cs.head?.map (·.char))).2
    by_cases hcode : (maskStep s c.char (cs.head?.map (·.char))).1 = .code
    · obtain ⟨hquote, hother, houtside⟩ := maskStep_code hcode
      rw [hcode, show cover (· != .code) .code c = c from rfl, Hushed]
      split
      · rename_i hx
        rw [← hquote hx]
        exact hnext
      · rename_i hx
        rw [hother hx] at hnext
        split
        · exact hnext
        · rename_i hx'
          rw [houtside hx hx']
          exact ⟨nofun, hnext⟩
    · obtain ⟨hstep, hfeed⟩ := maskStep_covered hcode
      rw [hstep] at hnext
      unfold cover
      split
      · exact ⟨fun _ => by decide, hnext⟩
      · rename_i hbreak
        have hchar : c.char = '\n' ∨ c.char = '\r' := by
          by_contra hne
          exact hbreak ⟨by simpa using hcode, not_or.mp hne⟩
        rcases hchar with hx | hx
        · rw [hfeed hx] at hnext
          rw [Hushed, if_neg (by rw [hx]; decide), if_pos hx]
          exact hnext
        · rw [Hushed, if_neg (by rw [hx]; decide), if_neg (by rw [hx]; decide)]
          exact ⟨fun _ => by rw [Cell.isBlank, hx]; decide, hnext⟩

end Source

theorem CharClass.isBlank_of_isWord {c : Char} (h : isWord c = true) : isBlank c = false := by
  have hblanks : ∀ n ∈ [0x85, 0xA0, 0x1680] ++ List.range' 0x2000 0xB ++
      [0x2028, 0x2029, 0x202F, 0x205F, 0x3000], inRanges wordRanges n = false := by
    decide +kernel
  by_contra hblank
  by_cases hlt : c.toNat < 0x80
  · have hascii : ∀ n < 0x80, isWord (Char.ofNat n) = true → isBlank (Char.ofNat n) = false := by
      decide +kernel
    have := hascii c.toNat hlt
    rw [Char.ofNat_toNat] at this
    exact hblank (this h)
  · rw [isWord, if_neg hlt, hblanks] at h
    · cases h
    · simp [isBlank] at hblank
      simp [List.mem_range'_1]
      omega

namespace Source

open Cells

/-- **A stretch of the blanked copy that starts with a word is tidy**, if its quotes are closed. -/
theorem tidy_bare {S : Cells} {r : Extent} (hlt : r.start < r.stop) {x : Cell}
    (hx : (bare S)[r.start]? = some x) (hword : x.isWord = true)
    (hclosed : quotesClosed false ((bare S).slice r) = true) :
    Tidy false ((bare S).slice r) := by
  have hall : Hushed false (bare S) := hushed_coveredFrom .code S
  have hsplit : bare S = (bare S).take r.start ++ ((bare S).slice r ++
      ((bare S).drop r.start).drop (r.stop - r.start)) := by
    rw [slice, List.take_append_drop, List.take_append_drop]
  rw [hsplit] at hall
  obtain ⟨inside, hrest⟩ := hall.right
  have hslice := hrest.left
  -- a word is not blank, so it is not within quotes
  obtain rfl : inside = false := by
    rw [slice_cons hx hlt, Hushed] at hslice
    cases inside with
    | false => rfl
    | true =>
      rw [if_neg, if_neg] at hslice
      · have := CharClass.isBlank_of_isWord hword
        rw [← Cell.isBlank, hslice.1 rfl] at this
        cases this
      · rintro hfeed
        rw [Cell.isWord, hfeed] at hword
        revert hword
        decide
      · rintro hquote
        rw [Cell.isWord, hquote] at hword
        revert hword
        decide
  exact hslice.tidy hclosed

end Source
end TreeLint
