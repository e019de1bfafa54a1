/-
# Closing marks and the pieces between separators

What a search for a closing mark answers is an offset at which that mark stands.
A list of pieces goes through an interval from its start to its end with one
separator between neighbours, and a piece without the blanks at its ends lies
between boundaries of the source.

An interval that can be cut out of a text starts and ends at boundaries
(`Cells.Cuts`). One that can be cut out of the source can be cut out of its
blanked copies; the converse is only true next to something that is no blank.

Key definitions: `Cells.Cuts`, `Cells.HasAt`, `Cells.Separated`,
`Source.Text.Copies`.
Key theorems: `Source.hasAt_parenEnd`, `Source.snug_of_closingEnd?`,
`Source.separated_piecesFrom`, `Source.Text.Copies.cuts_trim`.
-/
import TreeLint.Proofs.Matches
import TreeLint.Source.Declaration

namespace TreeLint

namespace Cells

/-- The interval is in order and lies between boundaries. -/
structure Cuts (cs : Cells) (r : Extent) : Prop where
  le : r.start ≤ r.stop
  start : cs.isBoundary r.start = true
  stop : cs.isBoundary r.stop = true

/-- In a text whose first byte has the offset `pos`, the character stands at the offset `k`. -/
def HasAt (cs : Cells) (pos k : Nat) (ch : Char) : Prop :=
  pos ≤ k ∧ ∃ x, cs[k - pos]? = some x ∧ x.char = ch

variable {cs ds : Cells} {r : Extent} {pos k : Nat} {ch : Char}

theorem Snug.cuts (h : cs.Snug r) : cs.Cuts r := ⟨h.lt.le, h.start, h.stop⟩

theorem Cuts.stop_le (h : cs.Cuts r) : r.stop ≤ cs.length := le_length_of_isBoundary h.stop

/-- What can be cut out of a text can be cut out of a blanked copy. -/
theorem Blanks.cuts (h : cs.Blanks ds) (hr : cs.Cuts r) : ds.Cuts r :=
  ⟨hr.le, h.isBoundary hr.start, h.isBoundary hr.stop⟩

/-- **What is snug in a blanked copy is snug in the text.** -/
theorem Blanks.snug (h : cs.Blanks ds) (hr : ds.Snug r) : cs.Snug r := by
  obtain ⟨hlt, hstart, hstop, ⟨x, hx, hxne⟩, ⟨y, hy, hyne⟩⟩ := hr
  refine ⟨hlt, h.isBoundary_of_ne_space hstart (Or.inl hx) hxne,
    h.isBoundary_of_ne_space hstop (Or.inr ⟨by omega, hy⟩) hyne,
    ⟨x, h.getElem?_of_ne_space hx hxne, hxne⟩, ⟨y, h.getElem?_of_ne_space hy hyne, hyne⟩⟩

theorem HasAt.cons (h : cs.HasAt (pos + 1) k ch) (x : Cell) : HasAt (x :: cs) pos k ch := by
  obtain ⟨hle, y, hy, hchar⟩ := h
  refine ⟨by omega, y, ?_, hchar⟩
  rw [show k - pos = k - (pos + 1) + 1 by omega, List.getElem?_cons_succ]
  exact hy

theorem hasAt_head {x : Cell} (hx : x.char = ch) : HasAt (x :: cs) pos pos ch :=
  ⟨le_rfl, x, by simp, hx⟩

theorem HasAt.of_slice (h : HasAt (cs.slice r) r.start k ch) :
    r.start ≤ k ∧ k < r.stop ∧ ∃ x, cs[k]? = some x ∧ x.char = ch := by
  obtain ⟨hle, x, hx, hchar⟩ := h
  rw [getElem?_slice, show r.start + (k - r.start) = k by omega] at hx
  split at hx
  · rename_i hlt
    exact ⟨hle, hlt, x, hx, hchar⟩
  · cases hx

theorem HasAt.of_drop (h : HasAt (cs.drop pos) pos k ch) :
    pos ≤ k ∧ ∃ x, cs[k]? = some x ∧ x.char = ch := by
  obtain ⟨hle, x, hx, hchar⟩ := h
  rw [List.getElem?_drop, show pos + (k - pos) = k by omega] at hx
  exact ⟨hle, x, hx, hchar⟩

/-- A mark of the copy stands between boundaries of the text. -/
theorem Blanks.snug_single (h : cs.Blanks ds) {x : Cell} (hx : ds[k]? = some x)
    (hsize : x.char.utf8Size = 1) (hne : x.char ≠ ' ') : cs.Snug ⟨k, k + 1⟩ :=
  h.snug (Cells.snug_single h.whole hx hsize hne)

theorem hasAt_findChar? (h : findChar? ch pos cs = some k) : cs.HasAt pos k ch := by
  induction cs generalizing pos with
  | nil => cases h
  | cons x xs ih =>
    rw [findChar?] at h
    split at h
    · rename_i hx
      cases h
      exact hasAt_head hx
    · exact (ih h).cons x

/-- A text without the mark is passed over. -/
theorem findChar?_append {front : Cells} (h : ∀ x ∈ front, x.char ≠ ch) (pos : Nat)
    (rest : Cells) :
    findChar? ch pos (front ++ rest) = findChar? ch (pos + front.length) rest := by
  induction front generalizing pos with
  | nil => rfl
  | cons x front ih =>
    rw [List.cons_append, findChar?, if_neg (h x List.mem_cons_self),
      ih fun y hy => h y (List.mem_cons_of_mem x hy), List.length_cons]
    congr 1
    omega

theorem findChar?_append_or (ch : Char) (pos : Nat) (front rest : Cells) :
    findChar? ch pos (front ++ rest) =
      (findChar? ch pos front).or (findChar? ch (pos + front.length) rest) := by
  induction front generalizing pos with
  | nil => rfl
  | cons x front ih =>
    rw [List.cons_append, findChar?, findChar?]
    split
    · rfl
    · rw [ih, List.length_cons, Nat.add_assoc, Nat.add_comm 1]

theorem findChar?_isSome_iff : (findChar? ch pos cs).isSome = true ↔ ∃ x ∈ cs, x.char = ch := by
  induction cs generalizing pos with
  | nil => simp [findChar?]
  | cons x cs ih =>
    rw [findChar?]
    split
    · rename_i hx
      exact iff_of_true rfl ⟨x, List.mem_cons_self, hx⟩
    · rename_i hx
      simp [ih, hx]

/-- The pieces of an interval between occurrences of a separator: in order, and each from the
start or a separator to a separator or the end. -/
structure Separated (cs : Cells) (sep : Char) (pos start stop : Nat) (ps : List Extent) : Prop where
  each : ∀ p ∈ ps, start ≤ p.start ∧ p.start ≤ p.stop ∧ p.stop ≤ stop ∧
    (p.start = start ∨ 0 < p.start ∧ cs.HasAt pos (p.start - 1) sep) ∧
    (p.stop = stop ∨ cs.HasAt pos p.stop sep)
  order : ps.Pairwise (·.stop < ·.start)

theorem separated_last (cs : Cells) (sep : Char) {pos start stop : Nat} (h : start ≤ stop) :
    cs.Separated sep pos start stop [⟨start, stop⟩] := by
  refine ⟨fun p hp => ?_, List.pairwise_singleton _ _⟩
  obtain rfl := List.mem_singleton.mp hp
  exact ⟨le_rfl, h, le_rfl, Or.inl rfl, Or.inl rfl⟩

variable {sep : Char} {start stop : Nat} {ps : List Extent}

theorem Separated.step (h : cs.Separated sep (pos + 1) start stop ps) (x : Cell) :
    Separated (x :: cs) sep pos start stop ps := by
  refine ⟨fun p hp => ?_, h.order⟩
  obtain ⟨hstart, hle, hstop, hbefore, hafter⟩ := h.each p hp
  exact ⟨hstart, hle, hstop, hbefore.imp_right fun hx => ⟨hx.1, hx.2.cons x⟩,
    hafter.imp_right fun hx => hx.cons x⟩

/-- A separator ends one piece and starts the next. -/
theorem Separated.cut (h : cs.Separated sep (pos + 1) (pos + 1) stop ps) {x : Cell}
    (hx : x.char = sep) (hstart : start ≤ pos) (hstop : pos ≤ stop) :
    Separated (x :: cs) sep pos start stop (⟨start, pos⟩ :: ps) := by
  refine ⟨fun p hp => ?_, List.pairwise_cons.mpr ⟨fun p hp => ?_, h.order⟩⟩
  · rcases List.mem_cons.mp hp with rfl | hp
    · exact ⟨le_rfl, hstart, hstop, Or.inl rfl, Or.inr (hasAt_head hx)⟩
    · obtain ⟨hlt, hle, hstop', hbefore, hafter⟩ := h.each p hp
      refine ⟨by omega, hle, hstop', Or.inr ?_, hafter.imp_right fun hx => hx.cons x⟩
      rcases hbefore with heq | ⟨hpos, hbefore⟩
      · rw [heq]
        exact ⟨by omega, hasAt_head hx⟩
      · exact ⟨hpos, hbefore.cons x⟩
  · have := (h.each p hp).1
    simp only
    omega

end Cells

namespace Source

variable {cs : Cells} {pos k depth : Nat}

theorem hasAt_braceEnd {inner : Nat} {ds : List Nat} (h : braceEnd inner pos cs ds = some k) :
    cs.HasAt pos k '\x7d' := by
  induction cs generalizing pos ds with
  | nil => cases h
  | cons x xs ih =>
    cases ds with
    | nil => cases h
    | cons d ds =>
      rw [braceEnd] at h
      split at h
      · rename_i hx
        cases h
        exact Cells.hasAt_head hx.1
      · exact (ih h).cons x

/-- From an offset on the depths are those of the rest, counted from the depth there. -/
theorem drop_depthsFrom {i : Nat} (hi : i ≤ cs.length) :
    (depthsFrom depth cs).drop i = depthsFrom ((depthsFrom depth cs).getD i 0) (cs.drop i) := by
  induction cs generalizing i depth with
  | nil =>
    obtain rfl : i = 0 := by simpa using hi
    rfl
  | cons x cs ih =>
    cases i with
    | zero => rfl
    | succ i =>
      rw [depthsFrom, List.drop_succ_cons, List.drop_succ_cons, ih (by simpa using hi),
        List.getD_cons_succ]

/-- Text without braces keeps the depth. -/
theorem depthsFrom_append {front : Cells} (h : ∀ x ∈ front, x.char ≠ '\x7b' ∧ x.char ≠ '\x7d')
    (depth : Nat) (rest : Cells) :
    depthsFrom depth (front ++ rest) =
      List.replicate front.length depth ++ depthsFrom depth rest := by
  induction front with
  | nil => rfl
  | cons x front ih =>
    obtain ⟨hopen, hclose⟩ := h x List.mem_cons_self
    rw [List.cons_append, depthsFrom, if_neg hopen, if_neg hclose,
      ih fun y hy => h y (List.mem_cons_of_mem x hy), List.length_cons, List.replicate_succ,
      List.cons_append]

/-- The search for a closing brace passes over text without one. -/
theorem braceEnd_append {front : Cells} (h : ∀ x ∈ front, x.char ≠ '\x7d')
    (inner depth pos : Nat) (rest : Cells) (ds : List Nat) :
    braceEnd inner pos (front ++ rest) (List.replicate front.length depth ++ ds) =
      braceEnd inner (pos + front.length) rest ds := by
  induction front generalizing pos with
  | nil => rfl
  | cons x front ih =>
    rw [List.cons_append, List.length_cons, List.replicate_succ, List.cons_append, braceEnd,
      if_neg fun hx => h x List.mem_cons_self hx.1, ih fun y hy => h y (List.mem_cons_of_mem x hy),
      Nat.add_assoc, Nat.add_comm 1]

/-- The count of parentheses passes over text without any. -/
theorem parenEnd_skip {front : Cells} (h : ∀ x ∈ front, x.char ≠ '(' ∧ x.char ≠ ')')
    (depth pos : Nat) (rest : Cells) :
    parenEnd depth pos (front ++ rest) = parenEnd depth (pos + front.length) rest := by
  induction front generalizing pos with
  | nil => rfl
  | cons x front ih =>
    obtain ⟨hopen, hclose⟩ := h x List.mem_cons_self
    rw [List.cons_append, parenEnd, if_neg hopen, if_neg hclose,
      ih fun y hy => h y (List.mem_cons_of_mem x hy), List.length_cons, Nat.add_assoc,
      Nat.add_comm 1]

/-- Text without semicolons goes to the first segment. -/
theorem segmentsFrom_skip {front : Cells} (h : ∀ x ∈ front, x.char ≠ ';') (start pos : Nat)
    (rest : Cells) :
    segmentsFrom start pos (front ++ rest) = segmentsFrom start (pos + front.length) rest := by
  induction front generalizing pos with
  | nil => rfl
  | cons x front ih =>
    rw [List.cons_append, segmentsFrom, if_neg (h x List.mem_cons_self),
      ih fun y hy => h y (List.mem_cons_of_mem x hy), List.length_cons, Nat.add_assoc,
      Nat.add_comm 1]

theorem hasAt_parenEnd (h : parenEnd depth pos cs = some k) : cs.HasAt pos k ')' := by
  induction cs generalizing depth pos with
  | nil => cases h
  | cons x xs ih =>
    rw [parenEnd] at h
    split at h
    · exact (ih h).cons x
    · split at h
      · rename_i hx
        split at h
        · cases h
          exact Cells.hasAt_head hx
        · exact (ih h).cons x
      · exact (ih h).cons x

theorem mem_of_blockEnd {fs : List (Found BlockToken)} (h : blockEnd depth fs = some k) :
    ∃ f ∈ fs, f.extent.stop = k := by
  induction fs generalizing depth with
  | nil => cases h
  | cons f fs ih =>
    have hlater : ∀ {depth}, blockEnd depth fs = some k → ∃ f' ∈ f :: fs, f'.extent.stop = k := by
      intro depth h
      obtain ⟨f', hf', hk⟩ := ih h
      exact ⟨f', List.mem_cons_of_mem _ hf', hk⟩
    rw [blockEnd.eq_def] at h
    simp only at h
    split at h
    · exact hlater h
    · split at h
      · cases h
      · cases h
        exact ⟨f, List.mem_cons_self, rfl⟩
      · exact hlater h

theorem separated_piecesFrom {start : Nat} (h : start ≤ pos) :
    cs.Separated ',' pos start (pos + cs.length) (piecesFrom depth start pos cs) := by
  induction cs generalizing depth start pos with
  | nil => exact Cells.separated_last _ _ (by simpa using h)
  | cons x xs ih =>
    have hlength : pos + (x :: xs).length = pos + 1 + xs.length := by
      rw [List.length_cons]
      omega
    rw [hlength, piecesFrom]
    split
    · exact (ih (by omega)).step x
    · split
      · exact (ih (by omega)).step x
      · split
        · rename_i hcomma
          exact (ih le_rfl).cut hcomma.1 h (by omega)
        · exact (ih (by omega)).step x

/-- The pieces of an interval go through it from its start to its end. -/
theorem separated_pieces {r : Extent} (h : cs.Cuts r) :
    (cs.slice r).Separated ',' r.start r.start r.stop
      (piecesFrom 0 r.start r.start (cs.slice r)) := by
  have hstop : r.start + (cs.slice r).length = r.stop := by
    rw [Cells.length_slice h.stop_le]
    exact Nat.add_sub_cancel' h.le
  exact hstop ▸ separated_piecesFrom (le_refl r.start)

theorem separated_segmentsFrom {start : Nat} (h : start ≤ pos) :
    cs.Separated ';' pos start (pos + cs.length) (segmentsFrom start pos cs) := by
  induction cs generalizing start pos with
  | nil => exact Cells.separated_last _ _ (by simpa using h)
  | cons x xs ih =>
    have hlength : pos + (x :: xs).length = pos + 1 + xs.length := by
      rw [List.length_cons]
      omega
    rw [hlength, segmentsFrom]
    split
    · rename_i hsemicolon
      exact (ih le_rfl).cut hsemicolon h (by omega)
    · exact (ih (by omega)).step x

/-! ### Blocks -/

/-- The block that starts at a boundary ends behind a word. -/
theorem snug_of_closingEnd? {stop : Nat} {c : Cursor} (hcs : cs.Whole)
    (hstop : cs.isBoundary stop = true) (h : c.Stands cs stop) (hk : closingEnd? c = some k) :
    ∃ start, c.pos ≤ start ∧ cs.Snug ⟨start, k⟩ ∧ k ≤ stop := by
  have hfirst : Cursor.In cs stop ⟨none, c.pos, c.rest⟩ :=
    ⟨h.rest_eq, h.pos_le, Or.inl ⟨rfl, h.boundary⟩⟩
  rw [closingEnd?, blockEndFrom_eq_blockEnd] at hk
  obtain ⟨f, hf, rfl⟩ := mem_of_blockEnd hk
  obtain ⟨c', d, hc', hle, -, hmatch, hextent⟩ :=
    Pattern.foundFrom_of_mem_allFrom (Cells.le_length_of_isBoundary hstop) hfirst hf
  obtain ⟨hd, hsnug⟩ := snug_blockToken hcs hstop hc' hmatch
  rw [hextent]
  exact ⟨c'.pos, by simpa using hle, hsnug, hd.pos_le⟩

end Source

/-! ### Trimming -/

theorem Cell.ne_space_of_isBlank {x : Cell} (h : x.isBlank = false) : x.char ≠ ' ' := by
  intro hspace
  rw [Cell.isBlank, hspace] at h
  revert h
  decide

theorem Cell.char_ne_of_isBlank {x y : Cell} (hx : x.isBlank = true) (hy : y.isBlank = false) :
    x.char ≠ y.char := by
  intro heq
  rw [Cell.isBlank, heq] at hx
  rw [Cell.isBlank, hx] at hy
  cases hy

namespace Cells

/-- Where one character differs from the next there is a boundary. -/
theorem Whole.isBoundary_of_ne {cs : Cells} (h : cs.Whole) {i : Nat} {x y : Cell}
    (hx : cs[i]? = some x) (hy : cs[i - 1]? = some y) (hne : y.char ≠ x.char) :
    cs.isBoundary i = true := by
  rw [isBoundary_iff]
  refine ⟨(List.getElem?_eq_some_iff.mp hx).1.le, ?_⟩
  intro x' hx'
  obtain rfl := Option.some.inj (hx.symm.trans hx')
  by_contra hlead
  obtain ⟨-, ⟨y', hy', hchar⟩, -⟩ := h.continued hx (by simpa using hlead)
  obtain rfl := Option.some.inj (hy.symm.trans hy')
  exact hne hchar

variable {cs : Cells} {r : Extent}

/-- The blanks at the start of an interval, and what stands after them. -/
theorem Cuts.leading (hcs : cs.Whole) (h : cs.Cuts r) :
    r.start + leadingBlanks (cs.slice r) ≤ r.stop ∧
    cs.isBoundary (r.start + leadingBlanks (cs.slice r)) = true ∧
    cs.Each r.start (r.start + leadingBlanks (cs.slice r)) (Cell.isBlank · = true) ∧
    ∀ x, r.start + leadingBlanks (cs.slice r) < r.stop →
      cs[r.start + leadingBlanks (cs.slice r)]? = some x → x.isBlank = false := by
  have hstart : (Cursor.ofSlice cs r).Stands cs r.stop := ⟨Cursor.in_ofSlice h.le h.start, h.start⟩
  have hle : leadingBlanks (cs.slice r) ≤ (cs.slice r).length :=
    (List.takeWhile_prefix Cell.isBlank).length_le
  have hlength : (cs.slice r).length = r.stop - r.start := length_slice h.stop_le
  have hsum : r.start + leadingBlanks (cs.slice r) ≤ r.stop := by
    have := h.le
    omega
  have hpos : (Cursor.ofSlice cs r).blanks.pos = r.start + leadingBlanks (cs.slice r) :=
    (hstart.toIn.advance h.stop_le hsum).2
  obtain ⟨-, -, hall, hnext⟩ := hstart.toIn.skipWhile h.stop Cell.isBlank
  rw [← Cursor.blanks, hpos] at hall hnext
  exact ⟨hsum, hpos ▸ (hstart.blanks hcs h.stop).boundary, hall, hnext⟩

/-- The blanks at the end of an interval, and what stands before them. -/
theorem Cuts.trailing (hcs : cs.Whole) (h : cs.Cuts r) :
    r.start + trailingBlanks (cs.slice r) ≤ r.stop ∧
    cs.isBoundary (r.stop - trailingBlanks (cs.slice r)) = true ∧
    cs.Each (r.stop - trailingBlanks (cs.slice r)) r.stop (Cell.isBlank · = true) ∧
    ∀ x, r.start + trailingBlanks (cs.slice r) < r.stop →
      cs[r.stop - trailingBlanks (cs.slice r) - 1]? = some x → x.isBlank = false := by
  have hlength : (cs.slice r).length = r.stop - r.start := length_slice h.stop_le
  have hle : trailingBlanks (cs.slice r) ≤ (cs.slice r).length := by
    have := (List.takeWhile_prefix Cell.isBlank (l := (cs.slice r).reverse)).length_le
    rwa [List.length_reverse] at this
  have hsum : r.start + trailingBlanks (cs.slice r) ≤ r.stop := by
    have := h.le
    omega
  -- the byte at distance `i` from the end
  have hcell : ∀ i, r.start + i < r.stop →
      (cs.slice r).reverse[i]? = cs[r.stop - 1 - i]? := by
    intro i hi
    rw [List.getElem?_reverse (by omega), getElem?_slice, if_pos (by omega)]
    congr 1
    omega
  obtain ⟨hall, hnext⟩ := Cursor.takeWhile_spec Cell.isBlank (cs.slice r).reverse
  rw [← leadingBlanks, ← trailingBlanks] at hall hnext
  have heach : cs.Each (r.stop - trailingBlanks (cs.slice r)) r.stop (Cell.isBlank · = true) := by
    intro k hk hlt
    obtain ⟨x, hx, hblank⟩ := hall (r.stop - 1 - k) (by omega)
    rw [hcell _ (by omega), show r.stop - 1 - (r.stop - 1 - k) = k by omega] at hx
    exact ⟨x, hx, hblank⟩
  have hlast : ∀ x, r.start + trailingBlanks (cs.slice r) < r.stop →
      cs[r.stop - trailingBlanks (cs.slice r) - 1]? = some x → x.isBlank = false := by
    intro x hlt hx
    apply hnext x
    rw [hcell _ hlt, ← hx]
    congr 1
    omega
  refine ⟨hsum, ?_, heach, hlast⟩
  by_cases hnone : trailingBlanks (cs.slice r) = 0
  · rw [hnone]
    exact h.stop
  by_cases hall' : r.start + trailingBlanks (cs.slice r) = r.stop
  · rw [show r.stop - trailingBlanks (cs.slice r) = r.start by omega]
    exact h.start
  · obtain ⟨x, hx, hblank⟩ := heach (r.stop - trailingBlanks (cs.slice r)) le_rfl (by omega)
    obtain ⟨y, hy⟩ : ∃ y, cs[r.stop - trailingBlanks (cs.slice r) - 1]? = some y :=
      ⟨_, List.getElem?_eq_getElem (by have := h.stop_le; omega)⟩
    have hyblank := hlast y (by omega) hy
    exact hcs.isBoundary_of_ne hx hy (Ne.symm (Cell.char_ne_of_isBlank hblank hyblank))

/-! ### Taking a written text apart -/

theorem trimStart_eq_self {cs : Cells} (h : cs.head?.any Cell.isBlank = false) :
    cs.trimStart = cs := by
  cases cs with
  | nil => rfl
  | cons x cs => exact List.dropWhile_cons_of_neg (by simpa using h)

/-- A text without blanks at its ends is trimmed already. -/
theorem trim_eq_self {cs : Cells} (hhead : cs.head?.any Cell.isBlank = false)
    (hlast : cs.getLast?.any Cell.isBlank = false) : cs.trim = cs := by
  have hback : trimStart cs.reverse = cs.reverse := trimStart_eq_self (by rwa [List.head?_reverse])
  rw [trim, trimStart_eq_self hhead, ← trimStart, hback, List.reverse_reverse]

theorem splitOn_of_not_mem {sep : Char} {cs : Cells} (h : ∀ x ∈ cs, x.char ≠ sep) :
    cs.splitOn sep = [cs] := by
  induction cs with
  | nil => rfl
  | cons x cs ih =>
    rw [splitOn, if_neg (h x List.mem_cons_self), ih fun y hy => h y (List.mem_cons_of_mem x hy)]

/-- The first piece goes up to the first separator. -/
theorem splitOn_append {sep : Char} {front : Cells} (h : ∀ x ∈ front, x.char ≠ sep) {x : Cell}
    (hx : x.char = sep) (back : Cells) :
    (front ++ x :: back).splitOn sep = front :: back.splitOn sep := by
  induction front with
  | nil => rw [List.nil_append, splitOn, if_pos hx]
  | cons y front ih =>
    rw [List.cons_append, splitOn, if_neg (h y List.mem_cons_self),
      ih fun z hz => h z (List.mem_cons_of_mem y hz)]

theorem linesFrom_of_no_feed {cs : Cells} (h : ∀ y ∈ cs, y.char ≠ '\n') (start pos : Nat)
    (line : Cells) : linesFrom start pos line cs = [(start, line.reverse ++ cs)] := by
  induction cs generalizing pos line with
  | nil => simp [linesFrom]
  | cons c cs ih =>
    rw [linesFrom, if_neg (h c List.mem_cons_self), ih fun y hy => h y (List.mem_cons_of_mem c hy)]
    simp

theorem linesFrom_append_feed {x : Cell} (hx : x.char = '\n') (front back : Cells) (start pos : Nat)
    (line : Cells) :
    linesFrom start pos line (front ++ x :: back) =
      linesFrom start pos line front ++ lines back (pos + front.length + 1) := by
  induction front generalizing start pos line with
  | nil => simp [linesFrom, hx, lines]
  | cons c front ih =>
    rw [List.cons_append, linesFrom, linesFrom, List.length_cons,
      show pos + (front.length + 1) = pos + 1 + front.length by omega]
    split
    · rw [ih]
      rfl
    · rw [ih]

end Cells

namespace Source

/-- The prepared text is made from the source `S`: both copies have characters of `S` blanked. -/
structure Text.Copies (t : Text) (S : Cells) : Prop where
  masked : S.Blanks t.masked
  bare : S.Blanks t.bare
  lines : t.lines = LineIndex.ofCells S

theorem Text.copies_ofCells {S : Cells} (hS : S.Whole) : (Text.ofCells S).Copies S :=
  ⟨blanks_masked hS, blanks_bare hS, rfl⟩

variable {S : Cells} {t : Text} (ht : t.Copies S) {r : Extent}
include ht

/-- **An interval without the blanks at its ends can be cut out of the source**, if the source has
a boundary where the interval ends; nothing but blanks is lost. -/
theorem Text.Copies.cuts_trim (hr : t.bare.Cuts r) (hstop : S.isBoundary r.stop = true) :
    S.Cuts (t.trim r) ∧ r.start ≤ (t.trim r).start ∧ (t.trim r).stop ≤ r.stop ∧
      ∀ i x, r.start ≤ i → i < r.stop → t.bare[i]? = some x → x.isBlank = false →
        (t.trim r).start ≤ i ∧ i < (t.trim r).stop := by
  obtain ⟨hlead, hstart, hleading, hfirst⟩ := hr.leading ht.bare.whole
  obtain ⟨htrail, hend, htrailing, hlast⟩ := hr.trailing ht.bare.whole
  have hle := hr.le
  -- nothing that is no blank stands among the blanks at the ends
  have hinside : ∀ i x, r.start ≤ i → i < r.stop → t.bare[i]? = some x → x.isBlank = false →
      r.start + Cells.leadingBlanks (t.bare.slice r) ≤ i ∧
        i + Cells.trailingBlanks (t.bare.slice r) < r.stop := by
    intro i x hi hlt hx hblank
    constructor
    · by_contra hnot
      obtain ⟨y, hy, hyblank⟩ := hleading i hi (by omega)
      obtain rfl := Option.some.inj (hx.symm.trans hy)
      rw [hblank] at hyblank
      cases hyblank
    · by_contra hnot
      obtain ⟨y, hy, hyblank⟩ := htrailing i (by omega) hlt
      obtain rfl := Option.some.inj (hx.symm.trans hy)
      rw [hblank] at hyblank
      cases hyblank
  have hstart_eq : (t.trim r).start = r.start + Cells.leadingBlanks (t.bare.slice r) := rfl
  have hstop_eq : (t.trim r).stop = max (r.stop - Cells.trailingBlanks (t.bare.slice r))
      (r.start + Cells.leadingBlanks (t.bare.slice r)) := rfl
  by_cases hall : r.start + Cells.leadingBlanks (t.bare.slice r) = r.stop
  · -- a blank interval shrinks to its end
    have hend_eq : (t.trim r).stop = r.stop := by omega
    refine ⟨⟨by omega, ?_, ?_⟩, by omega, by omega, ?_⟩
    · rw [hstart_eq, hall]
      exact hstop
    · rw [hend_eq]
      exact hstop
    · intro i x hi hlt hx hblank
      have := hinside i x hi hlt hx hblank
      omega
  · obtain ⟨x, hx⟩ : ∃ x, t.bare[r.start + Cells.leadingBlanks (t.bare.slice r)]? = some x :=
      ⟨_, List.getElem?_eq_getElem (by have := hr.stop_le; omega)⟩
    have hxblank := hfirst x (by omega) hx
    have hends := hinside _ x (by omega) (by omega) hx hxblank
    have hend_eq : (t.trim r).stop = r.stop - Cells.trailingBlanks (t.bare.slice r) := by omega
    obtain ⟨y, hy⟩ : ∃ y, t.bare[r.stop - Cells.trailingBlanks (t.bare.slice r) - 1]? = some y :=
      ⟨_, List.getElem?_eq_getElem (by have := hr.stop_le; omega)⟩
    have hyblank := hlast y (by omega) hy
    refine ⟨⟨by omega, ?_, ?_⟩, by omega, by omega, ?_⟩
    · rw [hstart_eq]
      exact ht.bare.isBoundary_of_ne_space hstart (Or.inl hx) (Cell.ne_space_of_isBlank hxblank)
    · rw [hend_eq]
      exact ht.bare.isBoundary_of_ne_space hend (Or.inr ⟨by omega, hy⟩)
        (Cell.ne_space_of_isBlank hyblank)
    · intro i z hi hlt hz hblank
      have := hinside i z hi hlt hz hblank
      omega

end Source
end TreeLint
