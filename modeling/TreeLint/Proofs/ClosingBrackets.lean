/-
# Closing brackets

Parentheses are matched with a running count, braces with a table of depths made for
the whole text, and blocks with a count over the words that open and close them.
Here all three are one thing, a count over the openers and closers read from the
opener on (`Source.closerFrom`). The table lags behind where a surplus brace did not
count, but from an opening brace up to the closing one it goes up and down with the
count (`Source.braceEnd_eq_closerFrom`).

The count answers the least place at which what is read is closed, and none if it
never is (`Source.leastOf_closerFrom`). So each of the three searches answers the
least place at which the text from the opener on is closed, and no count goes below
zero on the way there (`Source.closers_are_least`).

Key definitions: `LeastOf`, `Source.Closed`, `Source.closerFrom`.
Key theorems: `Source.leastOf_closerFrom`, `Source.closers_are_least`.
-/
import Mathlib.Order.Bounds.Basic
import TreeLint.Proofs.GuardedScan
import TreeLint.Proofs.Words

namespace TreeLint

/-- The answer is the least element of the set, and none if the set is empty. -/
structure LeastOf (S : Set Nat) (answer : Option Nat) : Prop where
  some_iff : ∀ n, answer = some n ↔ IsLeast S n
  none_iff : answer = none ↔ S = ∅

namespace LeastOf

variable {S T : Set Nat} {a : Option Nat}

theorem of_empty (h : S = ∅) : LeastOf S none where
  some_iff n := ⟨nofun, fun hn => by
    rw [h] at hn
    exact hn.1.elim⟩
  none_iff := ⟨fun _ => h, fun _ => rfl⟩

theorem of_isLeast {n : Nat} (h : IsLeast S n) : LeastOf S (some n) where
  some_iff m := ⟨fun hm => Option.some.inj hm ▸ h, fun hm => by rw [h.unique hm]⟩
  none_iff := ⟨nofun, fun hempty => (hempty ▸ h.1 : n ∈ (∅ : Set Nat)).elim⟩

/-- Elements that come after the answer do not count. -/
theorem inter_of_forall {p : Nat → Prop} (h : LeastOf S a) (hp : ∀ n, a = some n → p n) :
    LeastOf {n | p n ∧ n ∈ S} a := by
  cases a with
  | none =>
    have hempty := h.none_iff.mp rfl
    exact of_empty (Set.eq_empty_of_forall_notMem fun n hn => (hempty ▸ hn.2 : n ∈ (∅ : Set Nat)).elim)
  | some n =>
    have hleast := (h.some_iff n).mp rfl
    exact of_isLeast ⟨⟨hp n rfl, hleast.1⟩, fun m hm => hleast.2 hm.2⟩

end LeastOf

namespace Source

/-! ### Closed words -/

/-- With `depth` openers before it the word closes them all, and no other. -/
def ClosedFrom (depth : Nat) (w : List BlockToken) : Prop :=
  w.count .closer = depth + w.count .opener ∧
    ∀ v, v <+: w → v.count .closer ≤ depth + v.count .opener

/-- **The word is balanced**: it is not empty, it has as many closers as openers, and nowhere in
it have there been more closers than openers. -/
def Closed (w : List BlockToken) : Prop := w ≠ [] ∧ ClosedFrom 0 w

section Words

variable {depth : Nat} {w : List BlockToken}

theorem closedFrom_nil_iff : ClosedFrom depth [] ↔ depth = 0 := by
  constructor
  · intro h
    simpa [eq_comm] using h.1
  · rintro rfl
    exact ⟨rfl, fun v hv => by rw [List.prefix_nil.mp hv]; exact le_rfl⟩

theorem closedFrom_opener_iff : ClosedFrom depth (.opener :: w) ↔ ClosedFrom (depth + 1) w := by
  have hcount : ∀ v : List BlockToken, depth + (BlockToken.opener :: v).count .opener =
      depth + 1 + v.count .opener := fun v => by
    rw [List.count_cons_self]
    omega
  have hcount' : ∀ v : List BlockToken, (BlockToken.opener :: v).count .closer = v.count .closer :=
    fun v => List.count_cons_of_ne (by decide)
  unfold ClosedFrom
  rw [hcount, hcount']
  refine and_congr_right fun _ => ⟨fun h v hv => ?_, fun h v hv => ?_⟩
  · have := h (.opener :: v) (by simpa using hv)
    rwa [hcount, hcount'] at this
  · rcases List.prefix_cons_iff.mp hv with rfl | ⟨v, rfl, hrest⟩
    · simp
    · rw [hcount, hcount']
      exact h v hrest

theorem closedFrom_closer_iff : ClosedFrom (depth + 1) (.closer :: w) ↔ ClosedFrom depth w := by
  have hcount : ∀ v : List BlockToken, (BlockToken.closer :: v).count .opener = v.count .opener :=
    fun v => List.count_cons_of_ne (by decide)
  have hcount' : ∀ v : List BlockToken, (BlockToken.closer :: v).count .closer =
      v.count .closer + 1 := fun v => List.count_cons_self
  unfold ClosedFrom
  rw [hcount, hcount']
  refine and_congr (by omega) ⟨fun h v hv => ?_, fun h v hv => ?_⟩
  · have := h (.closer :: v) (by simpa using hv)
    rw [hcount, hcount'] at this
    omega
  · rcases List.prefix_cons_iff.mp hv with rfl | ⟨v, rfl, hrest⟩
    · simp
    · have := h v hrest
      rw [hcount, hcount']
      omega

/-- A surplus closer is never made up for. -/
theorem not_closedFrom_closer : ¬ ClosedFrom 0 (.closer :: w) := by
  intro h
  have := h.2 [.closer] (by simp)
  simp at this

end Words

/-! ### Counting -/

/-- Counts openers and closers, each with its place, from `depth` on and answers the place of the
closer that brings the count to zero. -/
def closerFrom (depth : Nat) : List (BlockToken × Nat) → Option Nat
  | [] => none
  | (.opener, _) :: ms => closerFrom (depth + 1) ms
  | (.closer, place) :: ms =>
    match depth with
    | 0 => none
    | 1 => some place
    | depth + 2 => closerFrom (depth + 1) ms

/-- What is read up to a place. -/
def readUpTo (place : Nat) (ms : List (BlockToken × Nat)) : List BlockToken :=
  (ms.filter (·.2 ≤ place)).map (·.1)

section Count

variable {ms : List (BlockToken × Nat)} {k : BlockToken} {place p depth : Nat}

theorem readUpTo_cons_of_le (h : place ≤ p) :
    readUpTo p ((k, place) :: ms) = k :: readUpTo p ms := by
  rw [readUpTo, List.filter_cons_of_pos (by simpa using h), List.map_cons]
  rfl

theorem readUpTo_eq_nil (h : ∀ m ∈ ms, p < m.2) : readUpTo p ms = [] := by
  rw [readUpTo, List.filter_eq_nil_iff.mpr fun m hm => by simpa using h m hm, List.map_nil]

theorem readUpTo_cons_of_lt (h : ((k, place) :: ms).Pairwise (·.2 < ·.2)) (hp : p < place) :
    readUpTo p ((k, place) :: ms) = [] ∧ readUpTo p ms = [] := by
  have hlater : ∀ m ∈ ms, place < m.2 := (List.pairwise_cons.mp h).1
  refine ⟨readUpTo_eq_nil fun m hm => ?_, readUpTo_eq_nil fun m hm => hp.trans (hlater m hm)⟩
  rcases List.mem_cons.mp hm with rfl | hm
  · exact hp
  · exact hp.trans (hlater m hm)

/-- **Within openers the count answers the least place at which they are all closed.** -/
theorem leastOf_closerFrom_of_pos (h : ms.Pairwise (·.2 < ·.2)) (hdepth : 0 < depth) :
    LeastOf {p | ClosedFrom depth (readUpTo p ms)} (closerFrom depth ms) := by
  induction ms generalizing depth with
  | nil =>
    refine .of_empty (Set.eq_empty_of_forall_notMem fun p hp => ?_)
    exact hdepth.ne' (closedFrom_nil_iff.mp hp)
  | cons m ms ih =>
    obtain ⟨k, place⟩ := m
    have htail := h.of_cons
    have hbefore : ∀ p, p < place → ∀ {depth}, 0 < depth →
        ¬ ClosedFrom depth (readUpTo p ((k, place) :: ms)) ∧ ¬ ClosedFrom depth (readUpTo p ms) := by
      intro p hp depth hdepth
      obtain ⟨hall, hrest⟩ := readUpTo_cons_of_lt h hp
      rw [hall, hrest, closedFrom_nil_iff]
      exact ⟨hdepth.ne', hdepth.ne'⟩
    -- once the first bracket is read, the rest is counted from the depth behind it
    have hstep : ∀ {depth'}, 0 < depth' →
        (∀ w, ClosedFrom depth (k :: w) ↔ ClosedFrom depth' w) →
        closerFrom depth ((k, place) :: ms) = closerFrom depth' ms →
        LeastOf {p | ClosedFrom depth (readUpTo p ((k, place) :: ms))}
          (closerFrom depth ((k, place) :: ms)) := by
      intro depth' hdepth' hiff hcount
      have hset : {p | ClosedFrom depth (readUpTo p ((k, place) :: ms))} =
          {p | ClosedFrom depth' (readUpTo p ms)} := by
        ext p
        simp only [Set.mem_ofPred_eq]
        by_cases hp : place ≤ p
        · rw [readUpTo_cons_of_le hp, hiff]
        · exact iff_of_false (hbefore p (by omega) hdepth).1 (hbefore p (by omega) hdepth').2
      rw [hset, hcount]
      exact ih htail hdepth'
    cases k with
    | opener => exact hstep (Nat.succ_pos depth) (fun _ => closedFrom_opener_iff) rfl
    | closer =>
      match depth, hdepth with
      | 1, _ =>
        refine .of_isLeast ⟨?_, fun p hp => ?_⟩
        · have hrest : readUpTo place ms = [] := readUpTo_eq_nil (List.pairwise_cons.mp h).1
          rw [Set.mem_ofPred_eq, readUpTo_cons_of_le le_rfl, hrest, closedFrom_closer_iff,
            closedFrom_nil_iff]
        · by_contra hlt
          exact (hbefore p (by omega) Nat.one_pos).1 hp
      | depth + 2, _ => exact hstep (Nat.succ_pos depth) (fun _ => closedFrom_closer_iff) rfl

/-- **The count answers the least place at which what is read is closed.** -/
theorem leastOf_closerFrom (h : ms.Pairwise (·.2 < ·.2)) :
    LeastOf {p | Closed (readUpTo p ms)} (closerFrom 0 ms) := by
  cases ms with
  | nil => exact .of_empty (Set.eq_empty_of_forall_notMem fun p hp => hp.1 rfl)
  | cons m ms =>
    obtain ⟨k, place⟩ := m
    cases k with
    | opener =>
      have hset : {p | Closed (readUpTo p ((.opener, place) :: ms))} =
          {p | ClosedFrom 1 (readUpTo p ms)} := by
        ext p
        simp only [Set.mem_ofPred_eq, Closed]
        by_cases hp : place ≤ p
        · rw [readUpTo_cons_of_le hp, closedFrom_opener_iff]
          simp
        · obtain ⟨hall, hrest⟩ := readUpTo_cons_of_lt h (Nat.lt_of_not_le hp)
          simp [hall, hrest, closedFrom_nil_iff]
      rw [hset]
      exact leastOf_closerFrom_of_pos h.of_cons Nat.one_pos
    | closer =>
      refine .of_empty (Set.eq_empty_of_forall_notMem fun p hp => ?_)
      by_cases hle : place ≤ p
      · rw [Set.mem_ofPred_eq, readUpTo_cons_of_le hle] at hp
        exact not_closedFrom_closer hp.2
      · exact hp.1 (readUpTo_cons_of_lt h (Nat.lt_of_not_le hle)).1

theorem mem_of_closerFrom (h : closerFrom depth ms = some place) : ∃ k, (k, place) ∈ ms := by
  induction ms generalizing depth with
  | nil => cases h
  | cons m ms ih =>
    have hlater : ∀ {depth}, closerFrom depth ms = some place → ∃ k, (k, place) ∈ m :: ms := by
      intro depth h
      obtain ⟨k, hk⟩ := ih h
      exact ⟨k, List.mem_cons_of_mem _ hk⟩
    obtain ⟨k, q⟩ := m
    cases k with
    | opener => exact hlater h
    | closer =>
      match depth, h with
      | 1, h =>
        cases h
        exact ⟨.closer, List.mem_cons_self⟩
      | depth + 2, h => exact hlater h

end Count

/-! ### Brackets among the bytes -/

/-- A parenthesis. -/
def paren? (x : Cell) : Option BlockToken :=
  if x.char = '(' then some .opener else if x.char = ')' then some .closer else none

/-- A brace. -/
def brace? (x : Cell) : Option BlockToken :=
  if x.char = '\x7b' then some .opener else if x.char = '\x7d' then some .closer else none

/-- The brackets among the bytes, with their places. -/
def bracketsFrom (bracket? : Cell → Option BlockToken) (pos : Nat) : Cells → List (BlockToken × Nat)
  | [] => []
  | x :: xs =>
    match bracket? x with
    | some k => (k, pos) :: bracketsFrom bracket? (pos + 1) xs
    | none => bracketsFrom bracket? (pos + 1) xs

section Brackets

variable {bracket? : Cell → Option BlockToken} {pos depth : Nat} {cs : Cells}

theorem le_of_mem_bracketsFrom {m : BlockToken × Nat} (h : m ∈ bracketsFrom bracket? pos cs) :
    pos ≤ m.2 ∧ m.2 < pos + cs.length := by
  induction cs generalizing pos with
  | nil => cases h
  | cons x xs ih =>
    have hlater : m ∈ bracketsFrom bracket? (pos + 1) xs → pos ≤ m.2 ∧ m.2 < pos + (x :: xs).length := by
      intro h
      have := ih h
      rw [List.length_cons]
      omega
    rw [bracketsFrom] at h
    split at h
    · rcases List.mem_cons.mp h with rfl | h
      · exact ⟨le_rfl, by simp⟩
      · exact hlater h
    · exact hlater h

theorem pairwise_bracketsFrom : (bracketsFrom bracket? pos cs).Pairwise (·.2 < ·.2) := by
  induction cs generalizing pos with
  | nil => exact .nil
  | cons x xs ih =>
    rw [bracketsFrom]
    split
    · exact .cons (fun m hm => (le_of_mem_bracketsFrom hm).1) ih
    · exact ih

theorem readUpTo_bracketsFrom (p : Nat) :
    readUpTo p (bracketsFrom bracket? pos cs) = (cs.take (p + 1 - pos)).filterMap bracket? := by
  induction cs generalizing pos with
  | nil => simp [bracketsFrom, readUpTo]
  | cons x xs ih =>
    by_cases hp : pos ≤ p
    · rw [show p + 1 - pos = p + 1 - (pos + 1) + 1 by omega, List.take_succ_cons, bracketsFrom,
        List.filterMap_cons]
      cases bracket? x with
      | none => exact ih
      | some k => rw [readUpTo_cons_of_le hp, ih]
    · rw [show p + 1 - pos = 0 by omega, List.take_zero, List.filterMap_nil]
      refine readUpTo_eq_nil fun m hm => ?_
      have := (le_of_mem_bracketsFrom hm).1
      omega

/-- **The count over the brackets from a place on answers the least place at which they are
closed.** -/
theorem leastOf_brackets (bracket? : Cell → Option BlockToken) (cs : Cells) (opening limit : Nat) :
    LeastOf {p | p < limit ∧ Closed ((cs.slice ⟨opening, p + 1⟩).filterMap bracket?)}
      (closerFrom 0 (bracketsFrom bracket? opening (cs.slice ⟨opening, limit⟩))) := by
  have hplaces : (bracketsFrom bracket? opening (cs.slice ⟨opening, limit⟩)).Pairwise
      (·.2 < ·.2) := pairwise_bracketsFrom
  have hleast := (leastOf_closerFrom hplaces).inter_of_forall (p := (· < limit)) fun p hp => by
    obtain ⟨k, hk⟩ := mem_of_closerFrom hp
    have := le_of_mem_bracketsFrom hk
    simp only [Cells.slice, List.length_take] at this
    omega
  convert hleast using 1
  ext p
  refine and_congr_right fun hlt => ?_
  rw [Set.mem_ofPred_eq, readUpTo_bracketsFrom, Cells.take_slice cs ⟨opening, limit⟩ hlt]

/-- Within parentheses the running count is the count over them. -/
theorem parenEnd_eq_closerFrom (h : 0 < depth) :
    parenEnd depth pos cs = closerFrom depth (bracketsFrom paren? pos cs) := by
  induction cs generalizing depth pos with
  | nil => rfl
  | cons x xs ih =>
    rw [parenEnd, bracketsFrom, paren?]
    by_cases hopen : x.char = '('
    · simp only [if_pos hopen]
      exact ih (Nat.succ_pos depth)
    by_cases hclose : x.char = ')'
    · simp only [if_neg hopen, if_pos hclose]
      obtain _ | _ | depth := depth
      · exact absurd h (Nat.lt_irrefl 0)
      · rfl
      · rw [if_neg (by omega)]
        exact ih (Nat.succ_pos depth)
    · simp only [if_neg hopen, if_neg hclose]
      exact ih h

/-- **Within braces the table of depths goes with the count over them.** What did not count before
them, did not count for the depth inside either. -/
theorem braceEnd_eq_closerFrom {inner : Nat} (hinner : 0 < inner) (h : inner ≤ depth) :
    braceEnd inner pos cs (depthsFrom depth cs) =
      closerFrom (depth + 1 - inner) (bracketsFrom brace? pos cs) := by
  induction cs generalizing depth pos with
  | nil => rfl
  | cons x xs ih =>
    rw [depthsFrom, braceEnd, bracketsFrom, brace?]
    by_cases hopen : x.char = '\x7b'
    · have hclose : ¬ (x.char = '\x7d' ∧ depth = inner) := by
        rw [hopen]
        exact fun hx => absurd hx.1 (by decide)
      simp only [if_pos hopen, if_neg hclose]
      rw [ih (Nat.le_succ_of_le h), closerFrom, show depth + 1 + 1 - inner = depth + 1 - inner + 1 by omega]
    by_cases hclose : x.char = '\x7d'
    · simp only [if_neg hopen, if_pos hclose]
      by_cases hlast : depth = inner
      · rw [if_pos ⟨hclose, hlast⟩, hlast, Nat.add_sub_cancel_left]
        rfl
      · rw [if_neg fun hx => hlast hx.2, ih (by omega),
          show depth + 1 - inner = depth - inner - 1 + 2 by omega, closerFrom,
          show depth - 1 + 1 - inner = depth - inner - 1 + 1 by omega]
    · have hclose' : ¬ (x.char = '\x7d' ∧ depth = inner) := fun hx => hclose hx.1
      simp only [if_neg hopen, if_neg hclose, if_neg hclose']
      exact ih h

end Brackets

/-! ### Blocks -/

/-- The words that open and close blocks, with the places where they end. -/
def blockWords (fs : List (Found BlockToken)) : List (BlockToken × Nat) :=
  fs.map fun f => (f.value, f.extent.stop)

theorem blockEnd_eq_closerFrom (depth : Nat) (fs : List (Found BlockToken)) :
    blockEnd depth fs = closerFrom depth (blockWords fs) := by
  induction fs generalizing depth with
  | nil => rfl
  | cons f fs ih =>
    obtain ⟨extent, k⟩ := f
    cases k with
    | opener => exact ih (depth + 1)
    | closer =>
      match depth with
      | 0 | 1 => rfl
      | depth + 2 => exact ih (depth + 1)

theorem readUpTo_blockWords (p : Nat) (fs : List (Found BlockToken)) :
    readUpTo p (blockWords fs) = (fs.filter (·.extent.stop ≤ p)).map (·.value) := by
  rw [readUpTo, blockWords, List.filter_map, List.map_map]
  rfl

end Source

/-! ### Patterns that go on -/

namespace Cursor

theorem pos_add_length_advance : ∀ (n : Nat) (c : Cursor),
    (c.advance n).pos + (c.advance n).rest.length = c.pos + c.rest.length
  | 0, _ => rfl
  | _ + 1, ⟨_, _, []⟩ => rfl
  | n + 1, ⟨before, pos, x :: xs⟩ => by
    rw [advance]
    simp only
    rw [pos_add_length_advance n, List.length_cons]
    simp only
    omega

theorem pos_add_length_word? {w : List Char} {c d : Cursor} (h : c.word? w = some d) :
    d.pos + d.rest.length = c.pos + c.rest.length := by
  induction w generalizing c with
  | nil =>
    cases h
    rfl
  | cons k w ih =>
    rw [word?.eq_def] at h
    simp only at h
    split at h
    · split at h
      · rw [ih h, pos_add_length_advance]
      · cases h
    · cases h

theorem length_lt_of_word? {k : Char} {w : List Char} {c d : Cursor} (h : c.word? (k :: w) = some d) :
    d.rest.length < c.rest.length := by
  rw [word?] at h
  split at h
  · rename_i x xs hrest
    split at h
    · obtain ⟨n, hn⟩ := Nat.exists_eq_succ_of_ne_zero x.char.utf8Size_pos.ne'
      have hnext : c.advance x.char.utf8Size = advance n ⟨some x, c.pos + 1, xs⟩ := by
        rw [hn, advance, hrest]
      rw [hnext] at h
      have hword := (rest_word?_suffix h).length_le
      have hadvance := (rest_advance_suffix n ⟨some x, c.pos + 1, xs⟩).length_le
      rw [hrest, List.length_cons]
      exact Nat.lt_succ_of_le (hword.trans hadvance)
    · cases h
  · cases h

/-- What stands before a word does not count for where it ends. -/
theorem word?_before {k : Char} {w : List Char} (before before' : Option Cell) (pos : Nat)
    (rest : Cells) :
    (Cursor.mk before pos rest).word? (k :: w) = (Cursor.mk before' pos rest).word? (k :: w) := by
  cases rest with
  | nil => rfl
  | cons x xs =>
    obtain ⟨n, hn⟩ := Nat.exists_eq_succ_of_ne_zero x.char.utf8Size_pos.ne'
    simp only [word?, hn]
    rfl

end Cursor

namespace Pattern

variable {α : Type} {p : Pattern α}

/-- What the pattern finds is not empty and lies in the text. -/
def Advances (p : Pattern α) : Prop :=
  ∀ c a d, p c = some (a, d) → c.pos < d.pos ∧ d.pos ≤ c.pos + c.rest.length

theorem Advances.of_mem_allFrom (hp : p.Advances) {skip pos : Nat} {before : Option Cell}
    {rest : Cells} {f : Found α} (h : f ∈ p.allFrom skip before pos rest) :
    pos + skip ≤ f.extent.start ∧ f.extent.start < f.extent.stop ∧
      f.extent.stop ≤ pos + rest.length := by
  induction rest generalizing skip before pos with
  | nil => simp [allFrom] at h
  | cons x xs ih =>
    have hlater : ∀ {skip}, f ∈ p.allFrom skip (some x) (pos + 1) xs →
        pos + 1 + skip ≤ f.extent.start ∧ f.extent.start < f.extent.stop ∧
          f.extent.stop ≤ pos + (x :: xs).length := by
      intro skip h
      obtain ⟨hstart, hlt, hstop⟩ := ih h
      rw [List.length_cons]
      exact ⟨hstart, hlt, by omega⟩
    cases skip with
    | succ skip =>
      obtain ⟨hstart, hbounds⟩ := hlater h
      exact ⟨by omega, hbounds⟩
    | zero =>
      rw [allFrom] at h
      split at h
      · rename_i a d hmatch
        rcases List.mem_cons.mp h with rfl | h
        · exact ⟨le_rfl, hp _ a d hmatch⟩
        · obtain ⟨hstart, hbounds⟩ := hlater h
          exact ⟨by omega, hbounds⟩
      · obtain ⟨hstart, hbounds⟩ := hlater h
        exact ⟨by omega, hbounds⟩

theorem Advances.pairwise_allFrom (hp : p.Advances) {skip pos : Nat} {before : Option Cell}
    {rest : Cells} : (p.allFrom skip before pos rest).Pairwise (·.extent.stop < ·.extent.stop) := by
  induction rest generalizing skip before pos with
  | nil => simp [allFrom]
  | cons x xs ih =>
    cases skip with
    | succ skip => exact ih
    | zero =>
      rw [allFrom]
      split
      · rename_i a d hmatch
        refine .cons (fun f hf => ?_) ih
        have hfirst := hp _ a d hmatch
        have hlater := hp.of_mem_allFrom hf
        simp only at hfirst ⊢
        omega
      · exact ih

end Pattern

namespace Source

open Cells (ofString)

theorem advances_wholeWord {k : Char} {w : List Char} {c d : Cursor}
    (h : c.wholeWord? (k :: w) = some d) : c.pos < d.pos ∧ d.pos ≤ c.pos + c.rest.length := by
  have hword : c.word? (k :: w) = some d := by
    unfold Cursor.wholeWord? at h
    grind
  have hsum := Cursor.pos_add_length_word? hword
  have hlt := Cursor.length_lt_of_word? hword
  omega

theorem advances_blockToken : blockToken.Advances := by
  intro c k d h
  unfold blockToken at h
  split at h
  · rename_i hword
    cases h
    exact advances_wholeWord hword
  · rename_i hword
    cases h
    exact advances_wholeWord hword
  · rename_i hword
    cases h
    exact advances_wholeWord hword
  · cases h

/-- The word that is found where it stands is found where the text is cut in front of it. -/
theorem wholeWord?_cut {k : Char} {w : List Char} (hk : 'a' ≤ k ∧ k ≤ 'z') {c d : Cursor}
    (h : c.wholeWord? (k :: w) = some d) :
    (Cursor.mk none c.pos c.rest).wholeWord? (k :: w) = some d := by
  obtain ⟨before, pos, rest⟩ := c
  unfold Cursor.wholeWord? at h
  split at h
  · split at h
    · rename_i e hword
      have hedge : (Cursor.mk none pos rest).atWordEdge = true := by
        cases rest with
        | nil => cases hword
        | cons x xs =>
          rw [Cursor.word?] at hword
          simp only at hword
          split at hword
          · rename_i hfolds
            simpa [Cursor.atWordEdge, Cell.isWord] using CharClass.isWord_of_folds hk hfolds
          · cases hword
      rw [Cursor.wholeWord?, if_pos hedge, Cursor.word?_before none before, hword]
      exact h
    · cases h
  · cases h

/-- Read from a `begin` on, the first block word is an opener. -/
theorem exists_opener {c : Cursor} (h : (keyword "begin" c).isSome = true) :
    ∃ extent fs, blockToken.all ⟨none, c.pos, c.rest⟩ = ⟨extent, .opener⟩ :: fs := by
  obtain ⟨found, hfound⟩ := Option.isSome_iff_exists.mp h
  obtain ⟨e, he, -⟩ := Option.map_eq_some_iff.mp hfound
  have hcut : (Cursor.mk none c.pos c.rest).wholeWord? ('b' :: ['e', 'g', 'i', 'n']) = some e :=
    wholeWord?_cut (by decide) he
  have hmatch : blockToken ⟨none, c.pos, c.rest⟩ = some (.opener, e) := by
    simp only [blockToken]
    rw [show "begin".toList = 'b' :: ['e', 'g', 'i', 'n'] by decide, hcut]
  obtain ⟨before, pos, rest⟩ := c
  cases rest with
  | nil => cases hcut
  | cons x xs => exact ⟨_, _, by rw [Pattern.all, Pattern.allFrom, hmatch]⟩

/-! ### The three searches -/

section Searches

variable {t : Text} {c : Cursor} {limit opening : Nat} {x : Cell}

/-- The search for a closing parenthesis is the count, and the count does not go below zero. -/
theorem closingParen?_eq_closerFrom (hrest : c.rest = t.bare.slice ⟨c.pos, limit⟩)
    (hx : t.bare[c.pos]? = some x) (hchar : x.char = '(') :
    closingParen? c = closerFrom 0 (bracketsFrom paren? c.pos c.rest) ∧
      Guarded.parenEnd 0 c.pos c.rest = .ok (closingParen? c) := by
  rw [closingParen?]
  by_cases hlt : c.pos < limit
  · rw [Cells.slice_cons hx hlt] at hrest
    rw [hrest, parenEnd, if_pos hchar, Guarded.parenEnd, if_pos hchar, bracketsFrom, paren?,
      if_pos hchar]
    exact ⟨parenEnd_eq_closerFrom Nat.one_pos, Guarded.parenEnd_eq Nat.one_pos⟩
  · have hnil : c.rest = [] := by
      rw [hrest, Cells.slice, Nat.sub_eq_zero_of_le (Nat.le_of_not_lt hlt), List.take_zero]
    rw [hnil]
    exact ⟨rfl, rfl⟩

/-- **The table of depths finds the brace that counting finds**, whatever stands before the opening
one. -/
theorem closingBrace?_eq_closerFrom (ht : t.depths = depthsFrom 0 t.bare)
    (hx : t.bare[opening]? = some x) (hchar : x.char = '\x7b') :
    t.closingBrace? opening = closerFrom 0 (bracketsFrom brace? opening (t.bare.drop opening)) := by
  obtain ⟨hlt, hget⟩ := List.getElem?_eq_some_iff.mp hx
  have hdrop : t.bare.drop opening = x :: t.bare.drop (opening + 1) := by
    rw [List.drop_eq_getElem_cons hlt, hget]
  have hdepths : t.depths.drop (opening + 1) =
      depthsFrom (t.depth opening + 1) (t.bare.drop (opening + 1)) := by
    have htable : (depthsFrom 0 t.bare).drop opening =
        depthsFrom ((depthsFrom 0 t.bare).getD opening 0) (t.bare.drop opening) :=
      drop_depthsFrom hlt.le
    rw [← ht, hdrop, depthsFrom, if_pos hchar] at htable
    rw [← List.tail_drop, htable]
    rfl
  rw [Text.closingBrace?, hdepths, braceEnd_eq_closerFrom (Nat.succ_pos _) le_rfl,
    Nat.add_sub_cancel_left, hdrop, bracketsFrom, brace?, if_pos hchar]
  rfl

theorem closingEnd?_eq_closerFrom (c : Cursor) :
    closingEnd? c = closerFrom 0 (blockWords (blockToken.all ⟨none, c.pos, c.rest⟩)) := by
  rw [closingEnd?, blockEndFrom_eq_blockEnd, blockEnd_eq_closerFrom]
  rfl

theorem leastOf_closingEnd? (hrest : c.rest = t.bare.slice ⟨c.pos, limit⟩) :
    LeastOf {e | e ≤ limit ∧ Closed (((blockToken.all ⟨none, c.pos, c.rest⟩).filter
      (·.extent.stop ≤ e)).map (·.value))} (closingEnd? c) := by
  have hwords : (blockWords (blockToken.all ⟨none, c.pos, c.rest⟩)).Pairwise (·.2 < ·.2) :=
    List.pairwise_map.mpr advances_blockToken.pairwise_allFrom
  have hleast := (leastOf_closerFrom hwords).inter_of_forall (p := (· ≤ limit)) fun e he => by
    obtain ⟨k, hk⟩ := mem_of_closerFrom he
    obtain ⟨f, hf, heq⟩ := List.mem_map.mp hk
    obtain ⟨hstart, hlt, hstop⟩ := advances_blockToken.of_mem_allFrom hf
    have hlength : c.rest.length ≤ limit - c.pos := by
      rw [hrest, Cells.slice]
      exact List.length_take_le ..
    cases heq
    simp only at hstart hstop
    omega
  rw [closingEnd?_eq_closerFrom]
  simpa only [Set.mem_ofPred_eq, readUpTo_blockWords] using hleast

end Searches

/-- **A closing bracket is found where the text from the opening one on is closed first.**

In a prepared text this holds for parentheses and for blocks up to any limit, and for braces up to
the end of the text. None is found exactly if there is no such place. The depth of a brace is the
one that counting gives, also behind surplus closing braces, and no count goes below zero. -/
theorem closers_are_least (source : Cells) {t : Text} (ht : t = Text.ofCells source) :
    (∀ (c : Cursor) (limit : Nat) (x : Cell), c.rest = t.bare.slice ⟨c.pos, limit⟩ →
      t.bare[c.pos]? = some x → x.char = '(' →
        LeastOf {p | p < limit ∧ Closed ((t.bare.slice ⟨c.pos, p + 1⟩).filterMap paren?)}
          (closingParen? c) ∧
        Guarded.parenEnd 0 c.pos c.rest = .ok (closingParen? c)) ∧
    (∀ (opening : Nat) (x : Cell), t.bare[opening]? = some x → x.char = '\x7b' →
        LeastOf {p | p < t.length ∧ Closed ((t.bare.slice ⟨opening, p + 1⟩).filterMap brace?)}
          (t.closingBrace? opening) ∧
        t.closingBrace? opening =
          closerFrom 0 (bracketsFrom brace? opening (t.bare.drop opening))) ∧
    (∀ (c : Cursor) (limit : Nat), c.rest = t.bare.slice ⟨c.pos, limit⟩ →
        LeastOf {e | e ≤ limit ∧ Closed (((blockToken.all ⟨none, c.pos, c.rest⟩).filter
          (·.extent.stop ≤ e)).map (·.value))} (closingEnd? c) ∧
        ((keyword "begin" c).isSome = true →
          Guarded.blockEnd 0 (blockToken.all ⟨none, c.pos, c.rest⟩) = .ok (closingEnd? c))) := by
  refine ⟨fun c limit x hrest hx hchar => ?_, fun opening x hx hchar => ?_, fun c limit hrest =>
    ⟨leastOf_closingEnd? hrest, fun hbegin => ?_⟩⟩
  · obtain ⟨hcount, hguarded⟩ := closingParen?_eq_closerFrom hrest hx hchar
    refine ⟨?_, hguarded⟩
    rw [hcount, hrest]
    exact leastOf_brackets paren? t.bare c.pos limit
  · have hcount := closingBrace?_eq_closerFrom (by rw [ht]; rfl) hx hchar
    refine ⟨?_, hcount⟩
    rw [hcount, ← Guarded.slice_to_end]
    exact leastOf_brackets brace? t.bare opening t.length
  · obtain ⟨extent, fs, hwords⟩ := exists_opener hbegin
    -- behind the opener the count stands at one
    have hrest : Guarded.blockEnd 1 fs = .ok (blockEnd 1 fs) := Guarded.blockEnd_eq Nat.one_pos
    rw [closingEnd?_eq_closerFrom, ← blockEnd_eq_closerFrom, hwords]
    exact hrest

/-- A surplus closer of each kind, and openers with their closers behind them. -/
def surplusClosers : String := "\x7d ) end \x7b begin case ( ( x ) ) end; end \x7d"

/-- The text prepared for scanning. -/
def surplusText : Text := Text.ofCells (ofString surplusClosers)

/-- Behind surplus closers each opener has its own closer, and a parenthesis has none before the
limit that cuts it off. -/
theorem closers_behind_surplus :
    IsLeast {p | p < 41 ∧ Closed ((surplusText.bare.slice ⟨21, p + 1⟩).filterMap paren?)} 29 ∧
    {p | p < 29 ∧ Closed ((surplusText.bare.slice ⟨21, p + 1⟩).filterMap paren?)} = ∅ ∧
    IsLeast {p | p < 41 ∧ Closed ((surplusText.bare.slice ⟨8, p + 1⟩).filterMap brace?)} 40 ∧
    IsLeast {e | e ≤ 41 ∧ Closed (((blockToken.all (Cursor.ofSlice surplusText.bare ⟨10, 41⟩)).filter
      (·.extent.stop ≤ e)).map (·.value))} 39 ∧
    Guarded.blockEnd 0 (blockToken.all (Cursor.ofSlice surplusText.bare ⟨10, 41⟩)) =
      .ok (some 39) := by
  obtain ⟨hparen, hbrace, hblock⟩ := closers_are_least (ofString surplusClosers) (t := surplusText) rfl
  have hopening : surplusText.bare[21]? = some ⟨'(', true⟩ := by decide +kernel
  have hend : closingEnd? (Cursor.ofSlice surplusText.bare ⟨10, 41⟩) = some 39 := by decide +kernel
  obtain ⟨hleast, hguarded⟩ := hblock (Cursor.ofSlice surplusText.bare ⟨10, 41⟩) 41 rfl
  refine ⟨?_, ?_, ?_, (hleast.some_iff 39).mp hend, ?_⟩
  · exact ((hparen (Cursor.ofSlice surplusText.bare ⟨21, 41⟩) 41 _ rfl hopening rfl).1.some_iff 29).mp
      (by decide +kernel)
  · exact (hparen (Cursor.ofSlice surplusText.bare ⟨21, 29⟩) 29 _ rfl hopening rfl).1.none_iff.mp
      (by decide +kernel)
  · exact ((hbrace 8 ⟨'\x7b', true⟩ (by decide +kernel) rfl).1.some_iff 40).mp (by decide +kernel)
  · rw [← hend]
    exact hguarded (by decide +kernel)

end Source
end TreeLint
