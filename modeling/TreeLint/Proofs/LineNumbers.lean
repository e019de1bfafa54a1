/-
# Lines and columns of offsets

The line index is a table of increasing offsets, zero and the offset behind each
line feed. An offset is on the line of the last entry that is no greater
(`LineIndex.OnLine`), and there is always one, since the table starts with zero.
So the line of an offset counts the line feeds before it, and the column counts
from behind the last of them (`LineIndex.LineStart`).

The entry can be looked for by halving the table. The search answers with the
place of the offset, or with the place where it would have to be put in; the line
is then the one before, and the difference never goes below zero
(`Guarded.searchedPosition_eq`).

Places are ordered as the offsets are: a later offset is on a later line, or on
the same line in a later column.

Key definitions: `LineIndex.table`, `LineIndex.OnLine`, `LineIndex.LineStart`,
`Guarded.search`, `Guarded.searchedPosition`.
Key theorems: `LineIndex.exists_onLine`, `LineIndex.strictMono_position`,
`Guarded.exists_search`, `LineIndex.position_exact`.
-/
import Mathlib.Algebra.Group.Nat.Defs
import Mathlib.Data.Prod.Lex
import TreeLint.Proofs.Guards

namespace TreeLint

namespace LineIndex

/-! ### The table of line starts -/

/-- The offsets at which the lines start, the first line included. -/
def table (index : LineIndex) : List Nat := 0 :: index.starts

theorem mem_startsFrom {s : Nat} : ∀ {cs : Cells} {pos : Nat}, s ∈ startsFrom pos cs ↔
    ∃ i x, cs[i]? = some x ∧ x.char = '\n' ∧ s = pos + i + 1
  | [], _ => by simp [startsFrom]
  | c :: cs, pos => by
    have hlater : s ∈ startsFrom (pos + 1) cs ↔
        ∃ i x, (c :: cs)[i + 1]? = some x ∧ x.char = '\n' ∧ s = pos + (i + 1) + 1 := by
      rw [mem_startsFrom]
      simp only [List.getElem?_cons_succ, show ∀ i, pos + 1 + i = pos + (i + 1) by omega]
    have hfirst : (∃ i x, (c :: cs)[i]? = some x ∧ x.char = '\n' ∧ s = pos + i + 1) ↔
        (c.char = '\n' ∧ s = pos + 1) ∨
          ∃ i x, (c :: cs)[i + 1]? = some x ∧ x.char = '\n' ∧ s = pos + (i + 1) + 1 := by
      constructor
      · rintro ⟨_ | i, x, hx, hchar, rfl⟩
        · cases hx
          exact Or.inl ⟨hchar, rfl⟩
        · exact Or.inr ⟨i, x, hx, hchar, rfl⟩
      · rintro (⟨hchar, rfl⟩ | ⟨i, x, hx, hchar, rfl⟩)
        · exact ⟨0, c, rfl, hchar, rfl⟩
        · exact ⟨i + 1, x, hx, hchar, rfl⟩
    rw [startsFrom, hfirst, ← hlater]
    split
    · rename_i hc
      simp [hc]
    · rename_i hc
      simp [hc]

theorem pairwise_startsFrom : ∀ (cs : Cells) (pos : Nat), (startsFrom pos cs).Pairwise (· < ·)
  | [], _ => .nil
  | c :: cs, pos => by
    rw [startsFrom]
    split
    · refine .cons (fun s hs => ?_) (pairwise_startsFrom cs _)
      obtain ⟨i, x, -, -, rfl⟩ := mem_startsFrom.mp hs
      omega
    · exact pairwise_startsFrom cs _

theorem pairwise_table (cs : Cells) : (ofCells cs).table.Pairwise (· < ·) := by
  refine .cons (fun s hs => ?_) (pairwise_startsFrom cs 0)
  obtain ⟨i, x, -, -, rfl⟩ := mem_startsFrom.mp hs
  omega

section Increasing

variable {table : List Nat} (hpairwise : table.Pairwise (· < ·)) {i j s t : Nat}
  (hs : table[i]? = some s) (ht : table[j]? = some t)
include hpairwise hs ht

theorem lt_of_index_lt (h : i < j) : s < t := by
  obtain ⟨hi, rfl⟩ := List.getElem?_eq_some_iff.mp hs
  obtain ⟨hj, rfl⟩ := List.getElem?_eq_some_iff.mp ht
  exact List.pairwise_iff_getElem.mp hpairwise i j hi hj h

theorem le_of_index_le (h : i ≤ j) : s ≤ t := by
  rcases Nat.eq_or_lt_of_le h with rfl | hlt
  · rw [hs, Option.some.injEq] at ht
    exact ht.le
  · exact (lt_of_index_lt hpairwise hs ht hlt).le

end Increasing

theorem index_le_of_pairwise {table : List Nat} (hpairwise : table.Pairwise (· < ·)) :
    ∀ {i s : Nat}, table[i]? = some s → i ≤ s
  | 0, s, _ => Nat.zero_le s
  | i + 1, s, hs => by
    have hlt : i < table.length := by
      have := (List.getElem?_eq_some_iff.mp hs).1
      omega
    have hi := List.getElem?_eq_getElem hlt
    have := index_le_of_pairwise hpairwise hi
    have := lt_of_index_lt hpairwise hi hs (Nat.lt_succ_self i)
    omega

/-! ### The line of an offset -/

/-- The offset is on the line with a number, counted from zero, which starts at `start`. -/
structure OnLine (table : List Nat) (offset line start : Nat) : Prop where
  entry : table[line]? = some start
  le : start ≤ offset
  next : ∀ s, table[line + 1]? = some s → offset < s

theorem not_of_getElem?_length_takeWhile {α : Type} {p : α → Bool} {a : α} : ∀ {l : List α},
    l[(l.takeWhile p).length]? = some a → ¬ p a = true
  | x :: l, h => by
    by_cases hx : p x = true
    · rw [List.takeWhile_cons_of_pos hx, List.length_cons, List.getElem?_cons_succ] at h
      exact not_of_getElem?_length_takeWhile h
    · rw [List.takeWhile_cons_of_neg hx, List.length_nil, List.getElem?_cons_zero] at h
      exact Option.some.inj h ▸ hx

/-- **Every offset is on a line**, and its place is found there. -/
theorem exists_onLine (index : LineIndex) (offset : Nat) : ∃ line start,
    OnLine index.table offset line start ∧
      index.position offset = (line + 1, offset - start + 1) := by
  obtain ⟨start, hentry, hle, hlocate⟩ :=
    Guarded.exists_locate index.starts 1 (Nat.zero_le offset)
  refine ⟨_, start, ⟨hentry, hle, fun s hs => ?_⟩, by rw [position, hlocate, Nat.add_comm 1]⟩
  have := not_of_getElem?_length_takeWhile hs
  simpa using this

section OnLine

variable {table : List Nat} (hpairwise : table.Pairwise (· < ·)) {a b line line' start start' : Nat}
include hpairwise

theorem OnLine.index_le (h : OnLine table a line start) {i s : Nat} (hs : table[i]? = some s)
    (hle : s ≤ a) : i ≤ line := by
  by_contra hlt
  have hnext : line + 1 < table.length := by
    have := (List.getElem?_eq_some_iff.mp hs).1
    omega
  have hentry := List.getElem?_eq_getElem hnext
  have := h.next _ hentry
  have := le_of_index_le hpairwise hentry hs (by omega)
  omega

theorem OnLine.lt_of_lt (ha : OnLine table a line start) (hb : OnLine table b line' start')
    (h : a < b) : line < line' ∨ line = line' ∧ a - start < b - start' := by
  rcases Nat.eq_or_lt_of_le (hb.index_le hpairwise ha.entry (by have := ha.le; omega)) with
    rfl | hlt
  · obtain rfl := Option.some.inj (ha.entry.symm.trans hb.entry)
    have := ha.le
    exact Or.inr ⟨rfl, by omega⟩
  · exact Or.inl hlt

end OnLine

/-- **The places of offsets are ordered as the offsets.** -/
theorem strictMono_position (cs : Cells) :
    StrictMono fun offset => toLex ((ofCells cs).position offset) := by
  intro a b hlt
  obtain ⟨line, start, ha, hposition⟩ := exists_onLine (ofCells cs) a
  obtain ⟨line', start', hb, hposition'⟩ := exists_onLine (ofCells cs) b
  have := ha.lt_of_lt (pairwise_table cs) hb hlt
  simp only [hposition, hposition', Prod.Lex.toLex_lt_toLex]
  omega

theorem toLex_position_lt (cs : Cells) {a b : Nat} :
    toLex ((ofCells cs).position a) < toLex ((ofCells cs).position b) ↔ a < b :=
  (strictMono_position cs).lt_iff_lt

theorem injective_position (cs : Cells) : Function.Injective (ofCells cs).position :=
  fun _ _ h => (strictMono_position cs).injective (congrArg toLex h)

/-! ### Counting line feeds -/

/-- How many line feeds a text has before an offset. -/
def feedsBefore (cs : Cells) (offset : Nat) : Nat :=
  (cs.take offset).countP (·.char = '\n')

/-- The line of an offset counts the line feeds that come before it, of a text that stands at
`pos`. -/
theorem locate_fst {offset : Nat} : ∀ (cs : Cells) (line start pos : Nat),
    (locate line start (startsFrom pos cs) offset).1 = line + feedsBefore cs (offset - pos)
  | [], _, _, _ => by simp [startsFrom, locate, feedsBefore]
  | c :: cs, line, start, pos => by
    by_cases hpos : pos < offset
    · have htake : (c :: cs).take (offset - pos) = c :: cs.take (offset - (pos + 1)) := by
        rw [show offset - pos = offset - (pos + 1) + 1 by omega, List.take_succ_cons]
      rw [feedsBefore, htake, startsFrom]
      by_cases hc : c.char = '\n'
      · rw [if_pos hc, locate, if_pos (by omega), locate_fst cs, feedsBefore,
          List.countP_cons_of_pos (by simpa using hc)]
        omega
      · rw [if_neg hc, locate_fst cs, feedsBefore, List.countP_cons_of_neg (by simpa using hc)]
    · rw [show offset - pos = 0 by omega, startsFrom]
      by_cases hc : c.char = '\n'
      · rw [if_pos hc, locate, if_neg (by omega)]
        rfl
      · rw [if_neg hc, locate_fst cs, show offset - (pos + 1) = 0 by omega]
        rfl

/-- The line of an offset starts at `start`: at the front of the text or behind a line feed, with no
line feed from there up to the offset. -/
structure LineStart (cs : Cells) (offset start : Nat) : Prop where
  le : start ≤ offset
  behind : start = 0 ∨ ∃ i x, start = i + 1 ∧ cs[i]? = some x ∧ x.char = '\n'
  single : ∀ i x, start ≤ i → i < offset → cs[i]? = some x → x.char ≠ '\n'

theorem mem_table {cs : Cells} {s : Nat} : s ∈ (ofCells cs).table ↔
    s = 0 ∨ ∃ i x, s = i + 1 ∧ cs[i]? = some x ∧ x.char = '\n' := by
  rw [table, List.mem_cons, ofCells, mem_startsFrom]
  simp only [Nat.zero_add]
  constructor
  · rintro (h | ⟨i, x, hx, hchar, hs⟩)
    · exact Or.inl h
    · exact Or.inr ⟨i, x, hs, hx, hchar⟩
  · rintro (h | ⟨i, x, hs, hx, hchar⟩)
    · exact Or.inl h
    · exact Or.inr ⟨i, x, hx, hchar, hs⟩

/-- **The line of an offset starts where the table says.** -/
theorem OnLine.lineStart {cs : Cells} {offset line start : Nat}
    (h : OnLine (ofCells cs).table offset line start) : LineStart cs offset start where
  le := h.le
  behind := mem_table.mp (List.mem_of_getElem? h.entry)
  single i x hi hlt hx hchar := by
    obtain ⟨k, hk⟩ := List.mem_iff_getElem?.mp (mem_table.mpr (Or.inr ⟨i, x, rfl, hx, hchar⟩))
    have := h.index_le (pairwise_table cs) hk hlt
    have := le_of_index_le (pairwise_table cs) hk h.entry this
    omega

end LineIndex

namespace Guarded

/-! ### Halving the table -/

/-- The answer of a search: the index of an entry, or the index at which it would have to be put
in. -/
inductive Search where
  | found (index : Nat)
  | absent (index : Nat)
deriving DecidableEq, Repr

/-- Halves `size` entries from `base` on until one is left. The entry at `base` is no greater than
what is looked for, unless `base` is zero. -/
def narrow (table : List Nat) (x base size : Nat) : Guarded Nat :=
  if h : 1 < size then do
    let mid := base + size / 2
    let e ← entry table mid
    narrow table x (if e ≤ x then mid else base) (size - size / 2)
  else .ok base
termination_by size

/-- Looks for an entry of an increasing table. -/
def search (table : List Nat) (x : Nat) : Guarded Search :=
  if table.isEmpty then .ok (.absent 0)
  else do
    let base ← narrow table x 0 table.length
    let e ← entry table base
    return if e = x then .found base else if e < x then .absent (base + 1) else .absent base

/-- The next number of 64 bits. -/
def nextWord (n : Nat) : Guarded Nat := if n + 1 < 2 ^ 64 then .ok (n + 1) else .error .overflow

/-- The entry that is the last one no greater than what was looked for. -/
def Search.last : Search → Guarded Nat
  | .found i => .ok i
  | .absent next => minus next 1

/-- The line and the column of an offset, found by halving the table of line starts. -/
def searchedPosition (index : LineIndex) (offset : Nat) : Guarded (Nat × Nat) := do
  let line ← (← search index.table offset).last
  let column ← minus offset (← entry index.table line)
  return (← nextWord line, ← nextWord column)

section Search

variable {table : List Nat} (hpairwise : table.Pairwise (· < ·)) {x : Nat}
include hpairwise

/-- **Halving ends at the last entry that is no greater**, or at the first entry. -/
theorem exists_narrow {base size : Nat} (hsize : 0 < size) (hle : base + size ≤ table.length)
    (hbelow : base = 0 ∨ ∃ e, table[base]? = some e ∧ e ≤ x)
    (habove : ∀ i e, base + size ≤ i → table[i]? = some e → x < e) :
    ∃ i e, narrow table x base size = .ok i ∧ table[i]? = some e ∧ (i = 0 ∨ e ≤ x) ∧
      ∀ j e', i < j → table[j]? = some e' → x < e' := by
  induction size using Nat.strong_induction_on generalizing base with
  | _ size ih =>
    rw [narrow]
    by_cases hone : 1 < size
    · have hmid : base + size / 2 < table.length := by omega
      have hentry := List.getElem?_eq_getElem hmid
      rw [dif_pos hone]
      simp only [entry_eq hentry, ok_bind]
      split
      · rename_i hx
        refine ih _ (by omega) (by omega) (by omega) (Or.inr ⟨_, hentry, hx⟩) fun i e hi => ?_
        exact habove i e (by omega)
      · rename_i hx
        refine ih _ (by omega) (by omega) (by omega) hbelow fun i e hi he => ?_
        have := LineIndex.le_of_index_le hpairwise hentry he (by omega)
        omega
    · rw [dif_neg hone]
      have hentry := List.getElem?_eq_getElem (show base < table.length by omega)
      refine ⟨base, _, rfl, hentry, hbelow.imp_right ?_, fun j e hj => habove j e (by omega)⟩
      rintro ⟨e, he, hx⟩
      rw [hentry, Option.some.injEq] at he
      rwa [he]

/-- What an answer says: where the entry is, or that the entries before an index are less and the
others greater. -/
def Search.Fits (table : List Nat) (x : Nat) : Search → Prop
  | .found i => table[i]? = some x
  | .absent i => i ≤ table.length ∧ (∀ j e, j < i → table[j]? = some e → e < x) ∧
      ∀ j e, i ≤ j → table[j]? = some e → x < e

variable (x) in
/-- **The search answers, and what it answers holds.** -/
theorem exists_search : ∃ r, search table x = .ok r ∧ r.Fits table x := by
  rw [search]
  cases htable : table.isEmpty with
  | true =>
    rw [List.isEmpty_iff] at htable
    subst htable
    exact ⟨_, rfl, by simp [Search.Fits]⟩
  | false =>
    have hpos : 0 < table.length := by
      cases table with
      | nil => cases htable
      | cons e table => exact Nat.succ_pos _
    obtain ⟨i, e, hnarrow, hentry, hbelow, habove⟩ :=
      exists_narrow hpairwise (x := x) hpos (by omega) (Or.inl rfl) fun j e hj he => by
        have := (List.getElem?_eq_some_iff.mp he).1
        omega
    have hi := (List.getElem?_eq_some_iff.mp hentry).1
    rw [if_neg Bool.false_ne_true, hnarrow, ok_bind, entry_eq hentry, ok_bind]
    refine ⟨_, rfl, ?_⟩
    split
    · rename_i heq
      exact heq ▸ hentry
    · rename_i hne
      split
      · rename_i hlt
        refine ⟨by omega, fun j e' hj he' => ?_, fun j e' hj => habove j e' (by omega)⟩
        have := LineIndex.le_of_index_le hpairwise he' hentry (by omega)
        omega
      · rename_i hge
        -- only the first entry can be greater
        obtain rfl : i = 0 := hbelow.resolve_right (by omega)
        refine ⟨by omega, fun j e' hj => absurd hj (Nat.not_lt_zero j), fun j e' _ he' => ?_⟩
        have := LineIndex.le_of_index_le hpairwise hentry he' (Nat.zero_le j)
        omega

/-- **The answer leads to the line of the offset**: where the offset would have to be put in, an
entry stands before it. -/
theorem Search.last_eq {line start : Nat} (h : LineIndex.OnLine table x line start) {r : Search}
    (hr : r.Fits table x) : r.last = .ok line := by
  have hle := h.le
  cases r with
  | found i =>
    have hi := h.index_le hpairwise hr (Nat.le_refl x)
    rcases Nat.eq_or_lt_of_le hi with rfl | hlt
    · rfl
    · have := LineIndex.lt_of_index_lt hpairwise hr h.entry hlt
      omega
  | absent next =>
    obtain ⟨hnext, hbelow, habove⟩ := hr
    have hlt : line < next := by
      by_contra hge
      have := habove line start (by omega) h.entry
      omega
    have hlast : next = line + 1 := by
      by_contra hne
      have hentry := List.getElem?_eq_getElem (show line + 1 < table.length by omega)
      have := hbelow (line + 1) _ (by omega) hentry
      have := h.next _ hentry
      omega
    rw [hlast, Search.last, minus_eq (by omega), Nat.add_sub_cancel]

end Search

/-- **The halving search gives the place of an offset**, without a fault. -/
theorem searchedPosition_eq (cs : Cells) {offset : Nat} (hoffset : offset < 2 ^ 64 - 1) :
    searchedPosition (LineIndex.ofCells cs) offset =
      .ok ((LineIndex.ofCells cs).position offset) := by
  have hpairwise := LineIndex.pairwise_table cs
  obtain ⟨line, start, hline, hposition⟩ := LineIndex.exists_onLine (LineIndex.ofCells cs) offset
  obtain ⟨r, hsearch, hfits⟩ := exists_search hpairwise offset
  have hnumber := LineIndex.index_le_of_pairwise hpairwise hline.entry
  have hle := hline.le
  rw [searchedPosition, hsearch, ok_bind, Search.last_eq hpairwise hline hfits, ok_bind,
    entry_eq hline.entry, ok_bind, minus_eq hle, ok_bind, nextWord, if_pos (by omega), ok_bind,
    nextWord, if_pos (by omega), ok_bind, hposition]
  rfl

end Guarded

namespace LineIndex

theorem toLex_span_le (cs : Cells) {r : Extent} (h : r.start ≤ r.stop) :
    toLex (((ofCells cs).span r).startLine, ((ofCells cs).span r).startCol) ≤
      toLex (((ofCells cs).span r).endLine, ((ofCells cs).span r).endCol) := by
  rw [← not_lt]
  change ¬ toLex ((ofCells cs).position r.stop) < toLex ((ofCells cs).position r.start)
  rw [toLex_position_lt]
  omega

/-- **The line index is exact.** For every text and every offset below `2 ^ 64 - 1`, also past the
end: halving the table of line starts finds the place of the offset without a fault. The line is one
more than the number of line feeds before the offset. It starts at zero or behind the last of these
line feeds, which is where the table says that it starts, and the column is one more than the number
of bytes from there. Places are ordered by line and column as the offsets are, so no two offsets have
the same place, and a span whose bytes are in order starts at or before the place where it ends. -/
theorem position_exact (cs : Cells) :
    (∀ offset < 2 ^ 64 - 1, Guarded.searchedPosition (ofCells cs) offset =
      .ok ((ofCells cs).position offset)) ∧
    (∀ offset, ∃ start, LineStart cs offset start ∧
      (ofCells cs).position offset = (1 + feedsBefore cs offset, offset - start + 1) ∧
      (ofCells cs).table[((ofCells cs).position offset).1 - 1]? = some start ∧
      start + ((ofCells cs).position offset).2 - 1 = offset) ∧
    (∀ a b, toLex ((ofCells cs).position a) < toLex ((ofCells cs).position b) ↔ a < b) ∧
    Function.Injective (ofCells cs).position ∧
    ∀ r : Extent, r.start ≤ r.stop →
      toLex (((ofCells cs).span r).startLine, ((ofCells cs).span r).startCol) ≤
        toLex (((ofCells cs).span r).endLine, ((ofCells cs).span r).endCol) := by
  refine ⟨fun _ h => Guarded.searchedPosition_eq cs h, fun offset => ?_,
    fun _ _ => toLex_position_lt cs, injective_position cs, fun _ h => toLex_span_le cs h⟩
  obtain ⟨line, start, hline, hposition⟩ := exists_onLine (ofCells cs) offset
  have hle := hline.le
  have hnumber : line + 1 = 1 + feedsBefore cs offset :=
    (congrArg Prod.fst hposition).symm.trans (locate_fst cs 1 0 0)
  refine ⟨start, hline.lineStart, by rw [hposition, hnumber], ?_, ?_⟩
  · rw [hposition]
    exact hline.entry
  · rw [hposition]
    simp only
    omega

/-- Behind two line feeds, and past the end of a text whose last line has a character of two
bytes. -/
theorem position_exact_feeds :
    Guarded.searchedPosition (ofCells (Cells.ofString "a\n\né")) 3 = .ok (3, 1) ∧
      Guarded.searchedPosition (ofCells (Cells.ofString "a\n\né")) 9 = .ok (3, 7) ∧
      toLex (3, 1) ≤ toLex (3, 7) := by
  obtain ⟨hsearch, -, -, -, hspan⟩ := position_exact (Cells.ofString "a\n\né")
  exact ⟨hsearch 3 (by decide), hsearch 9 (by decide), hspan ⟨3, 9⟩ (by decide)⟩

end LineIndex
end TreeLint
