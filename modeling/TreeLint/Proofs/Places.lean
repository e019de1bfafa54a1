/-
# Places in a text and what patterns find there

A cursor holds the bytes that are still to come. Here it is a place in a fixed
text, of which only what comes before some offset is seen (`Cursor.In`), so that
offsets found by different patterns can be compared. A place stands well if a
character starts there (`Cursor.Stands`). Patterns go from such places to such
places, and what they find starts and ends with something that is no blank
(`Cells.Snug`), which is why its ends are boundaries of the source as well.

A pattern is tried at every byte. One that asks for the edge of a word is not
found within a character, since all bytes of a character are alike in this.

Key definitions: `Cursor.In`, `Cursor.Stands`, `Cells.Each`, `Cells.Snug`,
`Pattern.FoundFrom`.
Key theorems: `Cursor.Stands.skipWhile`, `Cursor.Stands.word?`,
`Cursor.Stands.name?`, `Pattern.foundFrom_of_mem_all`, `Pattern.pairwise_all`.
-/
import TreeLint.Proofs.Boundaries
import TreeLint.Text.Cursor

namespace TreeLint

theorem Cell.ne_space_of_isWord {x : Cell} (h : x.isWord = true) : x.char ≠ ' ' := by
  intro hspace
  rw [Cell.isWord, hspace] at h
  revert h
  decide

namespace Cells

/-- Every byte from `i` up to `j` is there and has the property. -/
def Each (cs : Cells) (i j : Nat) (P : Cell → Prop) : Prop :=
  ∀ k, i ≤ k → k < j → ∃ x, cs[k]? = some x ∧ P x

theorem Each.mono {cs : Cells} {i j : Nat} {P Q : Cell → Prop} (h : cs.Each i j P)
    (hPQ : ∀ x, P x → Q x) : cs.Each i j Q := by
  intro k hi hj
  obtain ⟨x, hx, hP⟩ := h k hi hj
  exact ⟨x, hx, hPQ x hP⟩

theorem Each.append {cs : Cells} {i j k : Nat} {P : Cell → Prop} (h : cs.Each i j P)
    (h' : cs.Each j k P) : cs.Each i k P := by
  intro m hi hk
  by_cases hm : m < j
  · exact h m hi hm
  · exact h' m (by omega) hk

theorem each_self (cs : Cells) (i : Nat) (P : Cell → Prop) : cs.Each i i P := by
  intro k hi hj
  omega

theorem each_single {cs : Cells} {i : Nat} {P : Cell → Prop} {x : Cell} (hx : cs[i]? = some x)
    (hP : P x) : cs.Each i (i + 1) P := by
  intro k hi hj
  obtain rfl : k = i := by omega
  exact ⟨x, hx, hP⟩

/-- A stretch that is not empty, lies between boundaries and neither starts nor ends with a
blank. -/
structure Snug (cs : Cells) (r : Extent) : Prop where
  lt : r.start < r.stop
  start : cs.isBoundary r.start = true
  stop : cs.isBoundary r.stop = true
  first : ∃ x, cs[r.start]? = some x ∧ x.char ≠ ' '
  last : ∃ x, cs[r.stop - 1]? = some x ∧ x.char ≠ ' '

theorem snug_of_each {cs : Cells} {r : Extent} (hlt : r.start < r.stop)
    (hstart : cs.isBoundary r.start = true) (hstop : cs.isBoundary r.stop = true)
    (hall : cs.Each r.start r.stop (·.char ≠ ' ')) : cs.Snug r :=
  ⟨hlt, hstart, hstop, hall r.start (by omega) hlt, hall (r.stop - 1) (by omega) (by omega)⟩

theorem getElem?_slice (cs : Cells) (r : Extent) (k : Nat) :
    (cs.slice r)[k]? = if r.start + k < r.stop then cs[r.start + k]? else none := by
  unfold slice
  rw [List.getElem?_take, List.getElem?_drop]
  by_cases h : r.start + k < r.stop
  · rw [if_pos (by omega), if_pos h]
  · rw [if_neg (by omega), if_neg h]

theorem length_slice {cs : Cells} {r : Extent} (h : r.stop ≤ cs.length) :
    (cs.slice r).length = r.stop - r.start := by
  simp only [slice, List.length_take, List.length_drop]
  omega

/-- A stretch of a text is cut out where it stands. -/
theorem slice_of_append {cs front mid back : Cells} {r : Extent} (hcs : cs = front ++ (mid ++ back))
    (hstart : r.start = front.length) (hstop : r.stop = front.length + mid.length) :
    cs.slice r = mid := by
  rw [slice, hcs, hstart, hstop, List.drop_left, Nat.add_sub_cancel_left, List.take_left]

theorem drop_slice (cs : Cells) (r : Extent) (k : Nat) :
    (cs.slice r).drop k = cs.slice ⟨r.start + k, r.stop⟩ := by
  simp only [slice, List.drop_take, List.drop_drop]
  congr 1
  omega

theorem take_slice (cs : Cells) (r : Extent) {limit : Nat} (h : limit ≤ r.stop) :
    (cs.slice r).take (limit - r.start) = cs.slice ⟨r.start, limit⟩ := by
  simp only [slice, List.take_take]
  congr 1
  omega

/-- Cut at boundaries, a stretch of a text is a text. -/
theorem Whole.slice {cs : Cells} (h : cs.Whole) {r : Extent} (hstart : cs.isBoundary r.start = true)
    (hstop : cs.isBoundary r.stop = true) : Whole (cs.slice r) := by
  by_cases hle : r.start ≤ r.stop
  · have hrest := (h.split hstart).2
    have hcut : isBoundary (cs.drop r.start) (r.stop - r.start) = true := by
      rw [isBoundary_drop hle (le_length_of_isBoundary hstop)]
      exact hstop
    exact (hrest.split hcut).1
  · unfold Cells.slice
    rw [show r.stop - r.start = 0 by omega, List.take_zero]
    exact whole_nil

end Cells

namespace Cursor

/-- The place is one of the text, of which what comes before `stop` is seen. What stands before it
may be hidden only where a character starts. -/
structure In (cs : Cells) (stop : Nat) (c : Cursor) : Prop where
  rest_eq : c.rest = cs.slice ⟨c.pos, stop⟩
  pos_le : c.pos ≤ stop
  before_eq : c.before = none ∧ cs.isBoundary c.pos = true ∨ 0 < c.pos ∧ c.before = cs[c.pos - 1]?

/-- A character starts at the place, or the text ends there. -/
structure Stands (cs : Cells) (stop : Nat) (c : Cursor) : Prop extends c.In cs stop where
  boundary : cs.isBoundary c.pos = true

variable {cs : Cells} {stop : Nat} {c d : Cursor}

theorem In.getElem?_rest (h : c.In cs stop) (k : Nat) :
    c.rest[k]? = if c.pos + k < stop then cs[c.pos + k]? else none := by
  rw [h.rest_eq, Cells.getElem?_slice]

theorem In.length_rest (h : c.In cs stop) (hstop : stop ≤ cs.length) :
    c.rest.length = stop - c.pos := by
  rw [h.rest_eq, Cells.length_slice hstop]

theorem In.of_head? (h : c.In cs stop) {x : Cell} (hx : c.rest.head? = some x) :
    c.pos < stop ∧ cs[c.pos]? = some x := by
  rw [List.head?_eq_getElem?, h.getElem?_rest, Nat.add_zero] at hx
  split at hx
  · rename_i hlt
    exact ⟨hlt, hx⟩
  · cases hx

theorem In.of_head?_any (h : c.In cs stop) {p : Cell → Bool} (hp : c.rest.head?.any p = true) :
    ∃ x, c.pos < stop ∧ cs[c.pos]? = some x ∧ p x = true := by
  cases hx : c.rest.head? with
  | none => simp [hx] at hp
  | some x =>
    obtain ⟨hlt, hcell⟩ := h.of_head? hx
    exact ⟨x, hlt, hcell, by simpa [hx] using hp⟩

theorem In.head?_eq (h : c.In cs stop) (hlt : c.pos < stop) : c.rest.head? = cs[c.pos]? := by
  rw [List.head?_eq_getElem?, h.getElem?_rest, Nat.add_zero, if_pos hlt]

/-! ### Going on -/

theorem advance_eq : ∀ (n : Nat) (c : Cursor), n ≤ c.rest.length →
    c.advance n = ⟨if n = 0 then c.before else c.rest[n - 1]?, c.pos + n, c.rest.drop n⟩
  | 0, _, _ => rfl
  | n + 1, ⟨before, pos, []⟩, h => by simp at h
  | n + 1, ⟨before, pos, x :: xs⟩, h => by
    have hn : n ≤ xs.length := by simpa using h
    rw [advance]
    simp only
    rw [advance_eq n _ hn]
    cases n with
    | zero => simp
    | succ n =>
      simp only [Nat.add_one_ne_zero, if_false, Nat.add_sub_cancel, List.getElem?_cons_succ,
        List.drop_succ_cons, mk.injEq, true_and, and_true]
      omega

theorem In.at (h : c.In cs stop) {n : Nat} (hn : c.pos + n ≤ stop) {before : Option Cell}
    (hbefore : before = if n = 0 then c.before else c.rest[n - 1]?) :
    In cs stop ⟨before, c.pos + n, c.rest.drop n⟩ := by
  refine ⟨?_, hn, ?_⟩
  · rw [h.rest_eq, Cells.drop_slice]
  · by_cases hzero : n = 0
    · subst hzero
      rw [if_pos rfl] at hbefore
      rw [hbefore]
      exact h.before_eq
    · rw [if_neg hzero, h.getElem?_rest, if_pos (by omega)] at hbefore
      refine Or.inr ⟨by simp only; omega, ?_⟩
      simp only
      rw [hbefore, show c.pos + n - 1 = c.pos + (n - 1) by omega]

theorem In.advance (h : c.In cs stop) (hstop : stop ≤ cs.length) {n : Nat}
    (hn : c.pos + n ≤ stop) : (c.advance n).In cs stop ∧ (c.advance n).pos = c.pos + n := by
  have hle : n ≤ c.rest.length := by
    rw [h.length_rest hstop]
    omega
  rw [advance_eq n c hle]
  exact ⟨h.at hn rfl, rfl⟩

theorem In.moveTo (h : c.In cs stop) (pos : Nat) (hle : c.pos ≤ pos) (hpos : pos ≤ stop) :
    (c.moveTo pos).In cs stop ∧ (c.moveTo pos).pos = pos := by
  unfold Cursor.moveTo
  split
  · rename_i hzero
    exact ⟨h, by omega⟩
  · rename_i n hn
    have hpos' : c.pos + (n + 1) = pos := by omega
    refine ⟨h.at (by omega) ?_, hpos'⟩
    simp

theorem In.stopAt (h : c.In cs stop) {limit : Nat} (hle : c.pos ≤ limit) (hlimit : limit ≤ stop) :
    (c.stopAt limit).In cs limit := by
  refine ⟨?_, hle, h.before_eq⟩
  simp only [Cursor.stopAt]
  rw [h.rest_eq]
  exact Cells.take_slice cs ⟨c.pos, stop⟩ hlimit

theorem in_ofSlice {r : Extent} (hle : r.start ≤ r.stop) (hstart : cs.isBoundary r.start = true) :
    (ofSlice cs r).In cs r.stop :=
  ⟨rfl, hle, Or.inl ⟨rfl, hstart⟩⟩

/-- The edge of a word is a boundary: the bytes of one character are all in a word or all not. -/
theorem In.isBoundary_of_atWordEdge (h : c.In cs stop) (hcs : cs.Whole)
    (hstop : cs.isBoundary stop = true) (hedge : c.atWordEdge = true) :
    cs.isBoundary c.pos = true := by
  by_contra hnot
  have hlt : c.pos < stop := by
    have hne : c.pos ≠ stop := by
      rintro heq
      rw [heq] at hnot
      exact hnot hstop
    have := h.pos_le
    omega
  have hle : c.pos ≤ cs.length := h.pos_le.trans (Cells.le_length_of_isBoundary hstop)
  obtain ⟨x, hx, hlead⟩ : ∃ x, cs[c.pos]? = some x ∧ x.lead = false := by
    rw [Cells.isBoundary_iff] at hnot
    simpa [hle] using hnot
  obtain ⟨-, ⟨y, hy, hchar⟩, -⟩ := hcs.continued hx hlead
  have hbefore : c.before = some y := by
    rcases h.before_eq with ⟨-, hboundary⟩ | ⟨-, hbefore⟩
    · exact absurd hboundary hnot
    · rw [hbefore, hy]
  have hhead : c.rest.head? = some x := by
    rw [h.head?_eq hlt, hx]
  simp [atWordEdge, hbefore, hhead, Cell.isWord, hchar] at hedge

theorem In.next {before : Option Cell} {pos : Nat} {x : Cell} {xs : Cells}
    (h : In cs stop ⟨before, pos, x :: xs⟩) (hstop : stop ≤ cs.length) :
    pos < stop ∧ In cs stop ⟨some x, pos + 1, xs⟩ := by
  have hlt : pos < stop := by
    have := h.length_rest hstop
    simp only [List.length_cons] at this
    omega
  exact ⟨hlt, (h.advance hstop (n := 1) hlt).1⟩

/-- An ASCII character stands between two boundaries. -/
theorem In.isBoundary_of_mark? (h : c.In cs stop) (hcs : cs.Whole) {x : Char}
    (hx : x.utf8Size = 1) (hd : c.mark? x = some d) :
    cs.isBoundary c.pos = true := by
  unfold Cursor.mark? at hd
  split at hd
  · rename_i hhead
    obtain ⟨y, -, hcell, hchar⟩ := h.of_head?_any hhead
    have hchar' : y.char = x := by simpa using hchar
    exact (hcs.isBoundary_of_ascii hcell (by rw [hchar', hx])).1
  · cases hd

/-! ### Steps of patterns -/

theorem takeWhile_spec (p : Cell → Bool) (l : Cells) :
    (∀ k < (l.takeWhile p).length, ∃ x, l[k]? = some x ∧ p x = true) ∧
    ∀ x, l[(l.takeWhile p).length]? = some x → p x = false := by
  induction l with
  | nil => simp
  | cons a l ih =>
    by_cases ha : p a = true
    · rw [List.takeWhile_cons_of_pos ha, List.length_cons]
      refine ⟨fun k hk => ?_, fun x hx => ih.2 x (by simpa using hx)⟩
      cases k with
      | zero => exact ⟨a, rfl, ha⟩
      | succ k => exact ih.1 k (by omega)
    · rw [List.takeWhile_cons_of_neg ha]
      simp only [List.length_nil, Nat.not_lt_zero, false_implies, implies_true, true_and]
      rintro x hx
      cases hx
      simpa using ha

section Steps

variable (hcs : cs.Whole) (hstop : cs.isBoundary stop = true)

include hstop in
/-- The place after the bytes that satisfy a condition. -/
theorem In.skipWhile (h : c.In cs stop) (p : Cell → Bool) :
    (c.skipWhile p).In cs stop ∧ c.pos ≤ (c.skipWhile p).pos ∧
    cs.Each c.pos (c.skipWhile p).pos (p · = true) ∧
    ∀ x, (c.skipWhile p).pos < stop → cs[(c.skipWhile p).pos]? = some x → p x = false := by
  have hlength := Cells.le_length_of_isBoundary hstop
  have hrest := h.length_rest hlength
  obtain ⟨hall, hnext⟩ := takeWhile_spec p c.rest
  have hle : (c.rest.takeWhile p).length ≤ c.rest.length := (List.takeWhile_prefix p).length_le
  have hpos_le := h.pos_le
  obtain ⟨hin, hpos⟩ := h.advance hlength (n := (c.rest.takeWhile p).length) (by omega)
  rw [← Cursor.skipWhile] at hin hpos
  refine ⟨hin, by omega, fun k hk hlt => ?_, fun x hlt hx => ?_⟩
  · obtain ⟨x, hx, hpx⟩ := hall (k - c.pos) (by omega)
    rw [h.getElem?_rest, if_pos (by omega), show c.pos + (k - c.pos) = k by omega] at hx
    exact ⟨x, hx, hpx⟩
  · apply hnext
    rw [h.getElem?_rest, if_pos (by omega), ← hpos]
    exact hx

include hcs hstop in
/-- Where the condition is one on characters, a character starts after them. -/
theorem Stands.skipWhile (h : c.Stands cs stop) {p : Cell → Bool}
    (hp : ∀ x y : Cell, x.char = y.char → p x = p y) : (c.skipWhile p).Stands cs stop := by
  obtain ⟨hin, hle, hall, hnext⟩ := h.toIn.skipWhile hstop p
  refine ⟨hin, ?_⟩
  by_cases heq : (c.skipWhile p).pos = c.pos
  · rw [heq]
    exact h.boundary
  by_cases hlt : (c.skipWhile p).pos < stop
  · rw [Cells.isBoundary_iff]
    have hlength := Cells.le_length_of_isBoundary hstop
    refine ⟨by omega, fun x hx => ?_⟩
    -- a byte that goes on the character before it would satisfy the condition too
    by_contra hlead
    obtain ⟨-, ⟨y, hy, hchar⟩, -⟩ := hcs.continued hx (by simpa using hlead)
    obtain ⟨z, hz, hpz⟩ := hall ((c.skipWhile p).pos - 1) (by omega) (by omega)
    obtain rfl := Option.some.inj (hy.symm.trans hz)
    have := hnext x hlt hx
    rw [← hp y x hchar, hpz] at this
    cases this
  · rw [show (c.skipWhile p).pos = stop by have := hin.pos_le; omega]
    exact hstop

include hcs hstop in
theorem Stands.blanks (h : c.Stands cs stop) : c.blanks.Stands cs stop :=
  h.skipWhile hcs hstop fun x y hxy => by simp [Cell.isBlank, hxy]

include hstop in
theorem Stands.le_blanks (h : c.Stands cs stop) : c.pos ≤ c.blanks.pos :=
  (h.toIn.skipWhile hstop Cell.isBlank).2.1

include hcs hstop in
/-- The place after an ASCII character. -/
theorem Stands.mark? (h : c.Stands cs stop) {x : Char} (hx : x.utf8Size = 1)
    (hd : c.mark? x = some d) :
    d.Stands cs stop ∧ d.pos = c.pos + 1 ∧ ∃ y, cs[c.pos]? = some y ∧ y.char = x := by
  unfold Cursor.mark? at hd
  split at hd
  · rename_i hhead
    cases hd
    obtain ⟨y, hlt, hcell, hchar⟩ := h.toIn.of_head?_any hhead
    have hchar' : y.char = x := by simpa using hchar
    obtain ⟨-, hboundary, -⟩ := hcs.next h.boundary hcell
    rw [hchar', hx] at hboundary
    obtain ⟨hin, hpos⟩ := h.toIn.advance (Cells.le_length_of_isBoundary hstop) (n := 1) (by omega)
    refine ⟨⟨hin, ?_⟩, hpos, y, hcell, hchar'⟩
    rw [hpos]
    exact hboundary
  · cases hd

include hcs hstop in
/-- The place after the character that stands here, and the bytes of that character. -/
theorem Stands.character (h : c.Stands cs stop) {x : Cell} {xs : Cells} (hrest : c.rest = x :: xs) :
    (c.advance x.char.utf8Size).Stands cs stop ∧
      (c.advance x.char.utf8Size).pos = c.pos + x.char.utf8Size ∧
      cs.Each c.pos (c.pos + x.char.utf8Size) (·.char = x.char) ∧
      c.pos + x.char.utf8Size ≤ stop := by
  have hhead : c.rest.head? = some x := by rw [hrest]; rfl
  obtain ⟨hlt, hcell⟩ := h.of_head? hhead
  obtain ⟨-, hboundary, hsame, hnext⟩ := hcs.next h.boundary hcell
  have hle : c.pos + x.char.utf8Size ≤ stop := hnext stop hlt hstop
  obtain ⟨hin, hpos⟩ :=
    h.toIn.advance (Cells.le_length_of_isBoundary hstop) (n := x.char.utf8Size) hle
  refine ⟨⟨hin, by rw [hpos]; exact hboundary⟩, hpos, fun j hj hlt' => ?_, hle⟩
  obtain ⟨y, hy, hchar⟩ := hsame (j - c.pos) (by omega)
  rw [show c.pos + (j - c.pos) = j by omega] at hy
  exact ⟨y, hy, hchar⟩

include hcs hstop in
/-- The place after a word: every byte of it folds to a letter of the word. -/
theorem Stands.word? (h : c.Stands cs stop) {w : List Char} (hd : c.word? w = some d) :
    d.Stands cs stop ∧ c.pos + w.length ≤ d.pos ∧
      cs.Each c.pos d.pos (fun x => ∃ k ∈ w, CharClass.folds k x.char = true) := by
  induction w generalizing c with
  | nil =>
    cases hd
    exact ⟨h, by simp, Cells.each_self _ _ _⟩
  | cons k w ih =>
    rw [Cursor.word?.eq_def] at hd
    simp only at hd
    split at hd
    · rename_i x xs hrest
      split at hd
      · rename_i hfolds
        obtain ⟨hstands, hpos, hsame, -⟩ := h.character hcs hstop hrest
        obtain ⟨hd', hlength, hall⟩ := ih hstands hd
        have hpos' := x.char.utf8Size_pos
        rw [hpos] at hlength hall
        refine ⟨hd', by simp only [List.length_cons]; omega, ?_⟩
        have hfirst : cs.Each c.pos (c.pos + x.char.utf8Size)
            (fun x => ∃ k' ∈ k :: w, CharClass.folds k' x.char = true) := by
          refine hsame.mono fun y hchar => ?_
          exact ⟨k, List.mem_cons_self, by rw [hchar]; exact hfolds⟩
        refine hfirst.append (hall.mono ?_)
        rintro y ⟨k', hk', hf⟩
        exact ⟨k', List.mem_cons_of_mem _ hk', hf⟩
      · cases hd
    · cases hd

include hcs hstop in
/-- The place after one or more bytes that satisfy a condition on characters. -/
theorem Stands.some? (h : c.Stands cs stop) {p : Cell → Bool}
    (hp : ∀ x y : Cell, x.char = y.char → p x = p y) (hd : c.some? p = some d) :
    d.Stands cs stop ∧ c.pos < d.pos ∧ cs.Each c.pos d.pos (p · = true) := by
  unfold Cursor.some? at hd
  split at hd
  · rename_i hhead
    cases hd
    obtain ⟨x, hlt, hcell, hx⟩ := h.toIn.of_head?_any hhead
    obtain ⟨-, hle, hall, hnext⟩ := h.toIn.skipWhile hstop p
    refine ⟨h.skipWhile hcs hstop hp, ?_, hall⟩
    by_contra hnot
    have heq : (c.skipWhile p).pos = c.pos := by omega
    have := hnext x (by rw [heq]; exact hlt) (by rw [heq]; exact hcell)
    rw [hx] at this
    cases this
  · cases hd

include hcs hstop in
theorem Stands.blanks? (h : c.Stands cs stop) (hd : c.blanks? = some d) :
    d.Stands cs stop ∧ c.pos < d.pos := by
  obtain ⟨hstands, hlt, -⟩ :=
    h.some? hcs hstop (p := Cell.isBlank) (fun x y hxy => by simp [Cell.isBlank, hxy]) hd
  exact ⟨hstands, hlt⟩

include hcs hstop in
/-- A word of its own stands between boundaries, wherever it is looked for. -/
theorem In.wholeWord? (h : c.In cs stop) {w : List Char} (hd : c.wholeWord? w = some d) :
    c.Stands cs stop ∧ d.Stands cs stop ∧ c.pos + w.length ≤ d.pos ∧
      cs.Each c.pos d.pos (fun x => ∃ k ∈ w, CharClass.folds k x.char = true) := by
  unfold Cursor.wholeWord? at hd
  split at hd
  · rename_i hedge
    have hstands : c.Stands cs stop := ⟨h, h.isBoundary_of_atWordEdge hcs hstop hedge⟩
    split at hd
    · rename_i e hword
      split at hd
      · cases hd
        exact ⟨hstands, hstands.word? hcs hstop hword⟩
      · cases hd
    · cases hd
  · cases hd

include hcs hstop in
/-- A quoted name: quotes at both ends and none within. -/
theorem In.quoted? (h : c.In cs stop) (hd : c.quoted? = some d) :
    c.Stands cs stop ∧ d.Stands cs stop ∧ c.pos + 2 ≤ d.pos ∧
      (∃ x, cs[c.pos]? = some x ∧ x.char = '"') ∧ (∃ x, cs[d.pos - 1]? = some x ∧ x.char = '"') ∧
      cs.Each (c.pos + 1) (d.pos - 1) (·.char ≠ '"') := by
  unfold Cursor.quoted? at hd
  split at hd
  · rename_i e hopen
    have hstands : c.Stands cs stop := ⟨h, h.isBoundary_of_mark? hcs (by decide) hopen⟩
    obtain ⟨he, hpos, hfirst⟩ := hstands.mark? hcs hstop (by decide) hopen
    obtain ⟨-, hle, hall, -⟩ := he.toIn.skipWhile hstop fun x => x.char != '"'
    have hinside : (e.skipWhile fun x => x.char != '"').Stands cs stop :=
      he.skipWhile hcs hstop fun x y hxy => by simp [hxy]
    obtain ⟨hd', hpos', hlast⟩ := hinside.mark? hcs hstop (by decide) hd
    rw [hpos] at hall hle
    rw [show d.pos - 1 = (e.skipWhile fun x => x.char != '"').pos by omega]
    refine ⟨hstands, hd', by omega, hfirst, hlast, hall.mono ?_⟩
    intro x hx
    simpa using hx
  · cases hd

include hcs hstop in
/-- A plain name: word characters as far as they go. -/
theorem Stands.plain? (h : c.Stands cs stop) {letter : Char → Bool}
    (hletter : ∀ x, letter x = true → CharClass.isWord x = true)
    (hd : c.plain? letter = some d) :
    d.Stands cs stop ∧ c.pos < d.pos ∧ cs.Each c.pos d.pos (Cell.isWord · = true) ∧
      ∀ x, d.pos < stop → cs[d.pos]? = some x → x.isWord = false := by
  unfold Cursor.plain? at hd
  split at hd
  · rename_i hhead
    cases hd
    obtain ⟨x, hlt, hcell, hx⟩ := h.toIn.of_head?_any hhead
    have hword : x.isWord = true := by
      rcases Bool.or_eq_true_iff.mp hx with hx | hx
      · exact hletter _ hx
      · have : x.char = '_' := by simpa using hx
        rw [Cell.isWord, this]
        decide
    have hsome : c.some? Cell.isWord = some (c.skipWhile Cell.isWord) := by
      rw [Cursor.some?, h.toIn.head?_eq hlt, hcell, if_pos (by simpa using hword)]
    obtain ⟨hstands, hpos, hall⟩ :=
      h.some? hcs hstop (fun x y hxy => by simp [Cell.isWord, hxy]) hsome
    obtain ⟨-, -, -, hnext⟩ := h.toIn.skipWhile hstop Cell.isWord
    exact ⟨hstands, hpos, hall, hnext⟩
  · cases hd

include hcs hstop in
/-- **A name is snug:** it starts and ends with a quote or a word character. -/
theorem Stands.name? (h : c.Stands cs stop) {letter : Char → Bool}
    (hletter : ∀ x, letter x = true → CharClass.isWord x = true) {r : Extent}
    (hd : c.name? letter = some (r, d)) :
    d.Stands cs stop ∧ r = ⟨c.pos, d.pos⟩ ∧ cs.Snug r := by
  unfold Cursor.name? at hd
  split at hd
  · rename_i e heither
    cases hd
    rcases Option.or_eq_some_iff.mp heither with hquoted | ⟨-, hplain⟩
    · obtain ⟨-, hd', hle, ⟨x, hx, hxq⟩, ⟨y, hy, hyq⟩, -⟩ := h.toIn.quoted? hcs hstop hquoted
      exact ⟨hd', rfl, by simp only [upTo]; omega, h.boundary, hd'.boundary,
        ⟨x, hx, by rw [hxq]; decide⟩, ⟨y, hy, by rw [hyq]; decide⟩⟩
    · obtain ⟨hd', hlt, hall, -⟩ := h.plain? hcs hstop hletter hplain
      exact ⟨hd', rfl, Cells.snug_of_each hlt h.boundary hd'.boundary
        (hall.mono fun _ => Cell.ne_space_of_isWord)⟩
  · cases hd

end Steps

end Cursor

namespace Pattern

/-! ### Searches -/

variable {α : Type} {p : Pattern α} {cs : Cells} {stop : Nat} {c : Cursor}

/-- The pattern was found at a place at or after `start`. -/
def FoundFrom (p : Pattern α) (cs : Cells) (start stop : Nat) (f : Found α) : Prop :=
  ∃ c d : Cursor, c.In cs stop ∧ start ≤ c.pos ∧ c.pos < stop ∧ p c = some (f.value, d) ∧
    f.extent = ⟨c.pos, d.pos⟩

theorem FoundFrom.mono {start start' : Nat} {f : Found α} (h : p.FoundFrom cs start stop f)
    (hle : start' ≤ start) : p.FoundFrom cs start' stop f := by
  obtain ⟨c, d, hin, hstart, hlt, hp, hextent⟩ := h
  exact ⟨c, d, hin, by omega, hlt, hp, hextent⟩

/-- What a pattern says of the places it goes from and to, it says of what is found. -/
theorem FoundFrom.placed {start : Nat} {f : Found α} (h : p.FoundFrom cs start stop f)
    {Q : Extent → α → Prop} (hp : ∀ {c d : Cursor} {v}, c.In cs stop → p c = some (v, d) →
      d.Stands cs stop ∧ Q ⟨c.pos, d.pos⟩ v) :
    start ≤ f.extent.start ∧ f.extent.stop ≤ stop ∧ Q f.extent f.value := by
  obtain ⟨c, d, hc, hle, -, hmatch, hextent⟩ := h
  obtain ⟨hd, hplaced⟩ := hp hc hmatch
  rw [hextent]
  exact ⟨hle, hd.pos_le, hplaced⟩

section Search

variable (hstop : stop ≤ cs.length)
include hstop

theorem foundFrom_of_mem_allFrom {rest : Cells} {before : Option Cell} {pos skip : Nat}
    (h : Cursor.In cs stop ⟨before, pos, rest⟩) {f : Found α}
    (hf : f ∈ p.allFrom skip before pos rest) : p.FoundFrom cs (pos + skip) stop f := by
  induction rest generalizing before pos skip with
  | nil => simp [allFrom] at hf
  | cons x xs ih =>
    obtain ⟨hlt, hnext⟩ := h.next hstop
    cases skip with
    | succ skip => exact (ih hnext hf).mono (by omega)
    | zero =>
      rw [allFrom] at hf
      split at hf
      · rename_i a d hp
        rcases List.mem_cons.mp hf with rfl | hf
        · exact ⟨_, d, h, by simp, hlt, hp, rfl⟩
        · exact (ih hnext hf).mono (by omega)
      · exact (ih hnext hf).mono (by omega)

/-- **Every match is one at some place.** -/
theorem foundFrom_of_mem_all (h : c.In cs stop) {f : Found α} (hf : f ∈ p.all c) :
    p.FoundFrom cs c.pos stop f := foundFrom_of_mem_allFrom hstop h hf

theorem before_of_mem_allFrom {rest : Cells} {before : Cell} {pos skip : Nat}
    (h : Cursor.In cs stop ⟨some before, pos, rest⟩) {f : Found α}
    (hf : f ∈ p.allFrom skip (some before) pos rest) :
    ∃ c d : Cursor, c.In cs stop ∧ c.before ≠ none ∧ p c = some (f.value, d) ∧
      f.extent = ⟨c.pos, d.pos⟩ := by
  induction rest generalizing before pos skip with
  | nil => simp [allFrom] at hf
  | cons x xs ih =>
    obtain ⟨-, hnext⟩ := h.next hstop
    cases skip with
    | succ skip => exact ih hnext hf
    | zero =>
      rw [allFrom] at hf
      split at hf
      · rename_i a d hp
        rcases List.mem_cons.mp hf with rfl | hf
        · exact ⟨_, d, h, nofun, hp, rfl⟩
        · exact ih hnext hf
      · exact ih hnext hf

/-- Behind the place where a search starts, a match is one at a place that knows the byte before
it. -/
theorem before_of_mem_all (h : c.In cs stop) {f : Found α} (hf : f ∈ p.all c)
    (hlt : c.pos < f.extent.start) :
    ∃ c' d : Cursor, c'.In cs stop ∧ c'.before ≠ none ∧ p c' = some (f.value, d) ∧
      f.extent = ⟨c'.pos, d.pos⟩ := by
  obtain ⟨before, pos, rest⟩ := c
  cases rest with
  | nil => simp [all, allFrom] at hf
  | cons x xs =>
    obtain ⟨-, hnext⟩ := h.next hstop
    rw [all, allFrom] at hf
    split at hf
    · rcases List.mem_cons.mp hf with rfl | hf
      · exact absurd hlt (Nat.lt_irrefl _)
      · exact before_of_mem_allFrom hstop hnext hf
    · exact before_of_mem_allFrom hstop hnext hf

theorem foundFrom_of_firstFrom {rest : Cells} {before : Option Cell} {pos : Nat}
    (h : Cursor.In cs stop ⟨before, pos, rest⟩) {f : Found α}
    (hf : p.firstFrom before pos rest = some f) : p.FoundFrom cs pos stop f := by
  induction rest generalizing before pos with
  | nil => cases hf
  | cons x xs ih =>
    obtain ⟨hlt, hnext⟩ := h.next hstop
    rw [firstFrom] at hf
    split at hf
    · rename_i a d hp
      cases hf
      exact ⟨_, d, h, le_rfl, hlt, hp, rfl⟩
    · exact (ih hnext hf).mono (by omega)

theorem foundFrom_of_first? (h : c.In cs stop) {f : Found α} (hf : p.first? c = some f) :
    p.FoundFrom cs c.pos stop f := foundFrom_of_firstFrom hstop h hf

theorem pairwise_allFrom {rest : Cells} {before : Option Cell} {pos skip : Nat}
    (hp : ∀ c a d, Cursor.In cs stop c → p c = some (a, d) → c.pos < d.pos)
    (h : Cursor.In cs stop ⟨before, pos, rest⟩) :
    (p.allFrom skip before pos rest).Pairwise (·.extent.stop ≤ ·.extent.start) := by
  induction rest generalizing before pos skip with
  | nil => simp [allFrom]
  | cons x xs ih =>
    obtain ⟨-, hnext⟩ := h.next hstop
    cases skip with
    | succ skip => exact ih hnext
    | zero =>
      rw [allFrom]
      split
      · rename_i a d hmatch
        have hlt := hp _ a d h hmatch
        simp only at hlt
        rw [List.pairwise_cons]
        refine ⟨fun f hf => ?_, ih hnext⟩
        -- what is found later starts where this match ends
        obtain ⟨c', d', -, hle, -, -, hextent⟩ := foundFrom_of_mem_allFrom hstop hnext hf
        rw [hextent]
        simp only
        omega
      · exact ih hnext

/-- **Matches come one after the other** when each takes at least one byte. -/
theorem pairwise_all (hp : ∀ c a d, Cursor.In cs stop c → p c = some (a, d) → c.pos < d.pos)
    (h : c.In cs stop) : (p.all c).Pairwise (·.extent.stop ≤ ·.extent.start) :=
  pairwise_allFrom hstop hp h

end Search

end Pattern
end TreeLint
