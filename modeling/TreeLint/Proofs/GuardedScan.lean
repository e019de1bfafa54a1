/-
# Searches with every access checked

The searches in a prepared text, as guarded runs: names, matching brackets and
blocks, properties, the attribute lines above a header, arguments and
declarations. Each is given the interval it works on, cuts it out of one of the
copies and looks up depths by offset. None faults on an interval that can be cut
out of the source, and each answers what the plain search answers.

Key definitions: `Guarded.Prepared`, `Guarded.closingBrace`,
`Guarded.closingParen`, `Guarded.blockEnd`, `Guarded.attributes`,
`Guarded.arguments`, `Guarded.declarations`.
Key theorems: `Guarded.closingBrace_eq`, `Guarded.closingParen_eq`,
`Guarded.attributes_eq`, `Guarded.arguments_eq`, `Guarded.declarations_eq`.
-/
import TreeLint.Proofs.Guards
import TreeLint.Proofs.Sites

namespace TreeLint

/-- A line of the text starts at the offset. -/
def Cells.StartsLine (cs : Cells) (i : Nat) : Prop :=
  i = 0 ∨ 0 < i ∧ ∃ x, cs[i - 1]? = some x ∧ x.char = '\n'

namespace Cells

theorem drop_leadingBlanks (cs : Cells) : cs.drop cs.leadingBlanks = cs.trimStart :=
  calc cs.drop cs.leadingBlanks
      = (cs.takeWhile Cell.isBlank ++ cs.dropWhile Cell.isBlank).drop cs.leadingBlanks := by
        rw [List.takeWhile_append_dropWhile]
    _ = cs.trimStart := List.drop_left

theorem take_trailingBlanks (cs : Cells) :
    cs.take (cs.length - cs.trailingBlanks) = (cs.reverse.dropWhile Cell.isBlank).reverse := by
  have := congrArg List.reverse (drop_leadingBlanks cs.reverse)
  rwa [List.drop_reverse, List.reverse_reverse] at this

/-- A text without the white space around it is a text. -/
theorem Whole.trim {cs : Cells} (h : cs.Whole) : Whole cs.trim := by
  have hcuts : ∀ {ds : Cells}, ds.Whole → ds.Cuts ⟨0, ds.length⟩ := fun hds =>
    ⟨Nat.zero_le _, hds.isBoundary_zero, isBoundary_length _⟩
  have hslice : ∀ ds : Cells, ds.slice ⟨0, ds.length⟩ = ds := fun ds => by simp [Cells.slice]
  have hstart : Whole cs.trimStart := by
    have hboundary := ((hcuts h).leading h).2.1
    rw [hslice, Nat.zero_add] at hboundary
    rw [← drop_leadingBlanks]
    exact (h.split hboundary).2
  have hboundary := ((hcuts hstart).trailing hstart).2.1
  rw [hslice] at hboundary
  rw [Cells.trim, ← take_trailingBlanks]
  exact (hstart.split hboundary).1

end Cells

namespace Guarded

open Source

variable {α β : Type} {S : Cells} {t : Text} {r : Extent}

/-- What a text prepared from the source `S` is. -/
structure Prepared (S : Cells) (t : Text) : Prop extends t.Copies S where
  depths_eq : t.depths = depthsFrom 0 t.bare
  starts_eq : t.lines.starts = LineIndex.startsFrom 0 t.bare
  size : t.bare.length < UInt32.size

/-- What it is whatever its size: the copies, and a line index of the same lines. -/
structure Lined (S : Cells) (t : Text) : Prop extends t.Copies S where
  starts_eq : t.lines.starts = LineIndex.startsFrom 0 t.bare

theorem Prepared.lined (h : Prepared S t) : Lined S t := ⟨h.toCopies, h.starts_eq⟩

/-- Blanking moves no line break. -/
theorem startsFrom_coveredFrom (hide : Layer → Bool) (s : MaskState) (cs : Cells) (i : Nat) :
    LineIndex.startsFrom i (coveredFrom hide s cs) = LineIndex.startsFrom i cs := by
  induction cs generalizing s i with
  | nil => rfl
  | cons c cs ih =>
    have hchar : ∀ layer, (cover hide layer c).char = '\n' ↔ c.char = '\n' := by
      intro layer
      unfold cover
      split
      · rename_i hcover
        simp [Cell.space, hcover.2.1]
      · exact Iff.rfl
    rw [coveredFrom_cons, LineIndex.startsFrom, LineIndex.startsFrom, ih]
    simp only [hchar]

theorem lined_ofCells (hS : S.Whole) : Lined S (Text.ofCells S) where
  toCopies := Text.copies_ofCells hS
  starts_eq := (startsFrom_coveredFrom (· != .code) .code S 0).symm

theorem prepared_ofCells (hS : S.Whole) (hsize : S.length < UInt32.size) :
    Prepared S (Text.ofCells S) where
  toCopies := Text.copies_ofCells hS
  depths_eq := rfl
  starts_eq := (lined_ofCells hS).starts_eq
  size := by
    show (Source.bare S).length < UInt32.size
    rwa [Source.length_bare]

/-! ### Names and depths -/

/-- The name written in an interval. -/
def name (t : Text) (r : Extent) : Guarded String := do
  return Name.unquote (← piece t.masked r).text

theorem name_eq (ht : t.Copies S) (hr : S.Cuts r) : name t r = .ok (t.name r) := by
  rw [name, piece_eq (ht.masked.cuts hr)]
  rfl

theorem length_depthsFrom (depth : Nat) (cs : Cells) :
    (depthsFrom depth cs).length = cs.length + 1 := by
  induction cs generalizing depth with
  | nil => rfl
  | cons c cs ih => rw [depthsFrom, List.length_cons, ih, List.length_cons]

/-- A brace adds one at most. -/
theorem le_of_depthsFrom {depth i d : Nat} {cs : Cells} (h : (depthsFrom depth cs)[i]? = some d) :
    d ≤ depth + i := by
  induction cs generalizing depth i with
  | nil =>
    cases i with
    | zero => exact (Option.some.inj h).symm.le
    | succ i => cases h
  | cons c cs ih =>
    cases i with
    | zero => exact (Option.some.inj h).symm.le
    | succ i =>
      rw [depthsFrom, List.getElem?_cons_succ] at h
      have := ih h
      split at this
      · omega
      · split at this <;> omega

/-- There is a depth before every byte and at the end. -/
theorem getElem?_depths (ht : Prepared S t) {i : Nat} (hi : i ≤ t.bare.length) :
    t.depths[i]? = some (t.depth i) := by
  have hlt : i < t.depths.length := by
    rw [ht.depths_eq, length_depthsFrom]
    omega
  rw [Text.depth, List.getD_eq_getElem?_getD, List.getElem?_eq_getElem hlt]
  rfl

theorem depth_le (ht : Prepared S t) {i : Nat} (hi : i ≤ t.bare.length) : t.depth i ≤ i := by
  have hsome := getElem?_depths ht hi
  rw [ht.depths_eq] at hsome
  have := le_of_depthsFrom hsome
  omega

/-! ### Matching brackets -/

/-- The first closing brace at a depth; the depth is looked up at closing braces only. -/
def braceEnd (t : Text) (inner pos : Nat) : Cells → Guarded (Option Nat)
  | [] => .ok none
  | c :: cs =>
    if c.char = '\x7d' then do
      if (← entry t.depths pos) = inner then return some pos
      else braceEnd t inner (pos + 1) cs
    else braceEnd t inner (pos + 1) cs

/-- The closing brace that belongs to the opening brace at an offset. -/
def closingBrace (t : Text) (opening : Nat) : Guarded (Option Nat) := do
  let inner ← increment (← entry t.depths opening)
  let rest ← piece t.bare ⟨opening + 1, t.bare.length⟩
  braceEnd t inner (opening + 1) rest

theorem braceEnd_eq (ht : Prepared S t) (inner : Nat) {pos : Nat} {cs : Cells}
    (hpos : pos + cs.length = t.bare.length) :
    braceEnd t inner pos cs = .ok (Source.braceEnd inner pos cs (t.depths.drop pos)) := by
  induction cs generalizing pos with
  | nil =>
    rw [braceEnd, Source.braceEnd]
    simp
  | cons c cs ih =>
    rw [List.length_cons] at hpos
    have hsome := getElem?_depths ht (i := pos) (by omega)
    obtain ⟨hlt, hdepth⟩ := List.getElem?_eq_some_iff.mp hsome
    rw [braceEnd, List.drop_eq_getElem_cons hlt, Source.braceEnd, hdepth, entry_eq hsome,
      ih (by omega)]
    by_cases hc : c.char = '\x7d'
    · simp only [hc, if_true, ok_bind, true_and]
      by_cases hinner : t.depth pos = inner
      · rw [if_pos hinner, if_pos hinner]
        rfl
      · rw [if_neg hinner, if_neg hinner]
    · rw [if_neg hc, if_neg fun h => hc h.1]

theorem closingBrace_eq (ht : Prepared S t) {opening : Nat} {x : Cell}
    (hx : t.bare[opening]? = some x) (hxchar : x.char = '\x7b') :
    closingBrace t opening = .ok (t.closingBrace? opening) := by
  have hlt : opening < t.bare.length := (List.getElem?_eq_some_iff.mp hx).1
  have hle := depth_le ht hlt.le
  have hsize := ht.size
  have hcuts : t.bare.Cuts ⟨opening + 1, t.bare.length⟩ :=
    ⟨hlt, (ht.bare.whole.isBoundary_of_ascii hx (by rw [hxchar]; rfl)).2,
      Cells.isBoundary_length t.bare⟩
  rw [closingBrace, entry_eq (getElem?_depths ht hlt.le)]
  simp only [ok_bind]
  rw [increment_eq (by omega), ok_bind, piece_eq hcuts, ok_bind, slice_to_end,
    braceEnd_eq ht _ (by rw [List.length_drop]; omega), Text.closingBrace?]

/-- Counts parentheses; at a closing one the count goes down by one. -/
def parenEnd (depth pos : Nat) : Cells → Guarded (Option Nat)
  | [] => .ok none
  | c :: cs =>
    if c.char = '(' then parenEnd (depth + 1) (pos + 1) cs
    else if c.char = ')' then do
      let depth ← minus depth 1
      if depth = 0 then return some pos else parenEnd depth (pos + 1) cs
    else parenEnd depth (pos + 1) cs

/-- The closing parenthesis that belongs to the opening one at an offset, before a limit. -/
def closingParen (t : Text) (opening limit : Nat) : Guarded (Option Nat) := do
  parenEnd 0 opening (← piece t.bare ⟨opening, limit⟩)

theorem parenEnd_eq {depth pos : Nat} {cs : Cells} (h : 0 < depth) :
    parenEnd depth pos cs = .ok (Source.parenEnd depth pos cs) := by
  induction cs generalizing depth pos with
  | nil => rfl
  | cons c cs ih =>
    rw [parenEnd, Source.parenEnd, minus_eq h]
    by_cases hopen : c.char = '('
    · rw [if_pos hopen, if_pos hopen, ih (by omega)]
    · rw [if_neg hopen, if_neg hopen]
      by_cases hclose : c.char = ')'
      · simp only [if_pos hclose, ok_bind]
        by_cases hone : depth ≤ 1
        · rw [if_pos (by omega), if_pos hone]
          rfl
        · rw [if_neg (by omega), if_neg hone, ih (by omega)]
      · rw [if_neg hclose, if_neg hclose, ih h]

/-- The count starts at a parenthesis, so it does not go below zero before it is back there. -/
theorem closingParen_eq {opening limit : Nat} (hcuts : t.bare.Cuts ⟨opening, limit⟩)
    (hlt : opening < limit) {x : Cell} (hx : t.bare[opening]? = some x) (hxchar : x.char = '(') :
    closingParen t opening limit =
      .ok (Source.parenEnd 0 opening (t.bare.slice ⟨opening, limit⟩)) := by
  have hfirst : (t.bare.slice ⟨opening, limit⟩)[0]? = some x := by
    rw [Cells.getElem?_slice, if_pos (by simpa using hlt)]
    exact hx
  obtain ⟨cs, hcs⟩ : ∃ cs, t.bare.slice ⟨opening, limit⟩ = x :: cs := by
    cases hslice : t.bare.slice ⟨opening, limit⟩ with
    | nil =>
      rw [hslice] at hfirst
      cases hfirst
    | cons y cs =>
      rw [hslice] at hfirst
      cases hfirst
      exact ⟨cs, rfl⟩
  rw [closingParen, piece_eq hcuts, ok_bind, hcs, parenEnd, Source.parenEnd, if_pos hxchar,
    if_pos hxchar, parenEnd_eq (by omega)]

/-- The end of the block that the word at an offset opens, before a limit. -/
def closingEnd (t : Text) (opening limit : Nat) : Guarded (Option Nat) := do
  return closingEnd? ⟨none, opening, ← piece t.bare ⟨opening, limit⟩⟩

/-- Counts block words; at a closing one the count goes down by one. The search for the end of a
block gives up where this count would go below zero. -/
def blockEnd (depth : Nat) : List (Found BlockToken) → Guarded (Option Nat)
  | [] => .ok none
  | f :: fs =>
    match f.value with
    | .opener => blockEnd (depth + 1) fs
    | .closer => do
      let depth ← minus depth 1
      if depth = 0 then return some f.extent.stop else blockEnd depth fs

/-- **Within a block the count does not go below zero** before it is back there. -/
theorem blockEnd_eq {depth : Nat} {fs : List (Found BlockToken)} (h : 0 < depth) :
    blockEnd depth fs = .ok (Source.blockEnd depth fs) := by
  induction fs generalizing depth with
  | nil => rfl
  | cons f fs ih =>
    obtain ⟨extent, k⟩ := f
    cases k with
    | opener => exact ih (Nat.succ_pos depth)
    | closer =>
      rw [blockEnd]
      simp only
      rw [minus_eq h, ok_bind]
      match depth, h with
      | 1, _ => rfl
      | depth + 2, _ => exact ih (Nat.succ_pos depth)

/-! ### Properties -/

/-- The first match at a brace depth. -/
def findAtDepth (t : Text) (depth : Nat) : List (Found α) → Guarded (Option (Found α))
  | [] => .ok none
  | f :: fs => do
    if (← entry t.depths f.extent.start) = depth then return some f else findAtDepth t depth fs

/-- The value of the first property of the given form at a brace depth. -/
def property (t : Text) (p : Pattern Extent) (r : Extent) (depth : Nat) :
    Guarded (Option Extent) := do
  let part ← piece t.bare r
  return (← findAtDepth t depth (p.all ⟨none, r.start, part⟩)).map (·.value)

theorem findAtDepth_eq (ht : Prepared S t) (depth : Nat) {fs : List (Found α)}
    (hfs : ∀ f ∈ fs, f.extent.start ≤ t.bare.length) :
    findAtDepth t depth fs = .ok (fs.find? fun f => t.depth f.extent.start == depth) := by
  induction fs with
  | nil => rfl
  | cons f fs ih =>
    rw [findAtDepth, entry_eq (getElem?_depths ht (hfs f List.mem_cons_self)),
      ih fun g hg => hfs g (List.mem_cons_of_mem f hg), List.find?_cons]
    simp only [ok_bind]
    by_cases hdepth : t.depth f.extent.start = depth
    · rw [if_pos hdepth, beq_iff_eq.mpr hdepth]
      rfl
    · rw [if_neg hdepth, beq_eq_false_iff_ne.mpr hdepth]

theorem property_eq (ht : Prepared S t) (hr : S.Cuts r) (p : Pattern Extent) (depth : Nat) :
    property t p r depth = .ok (t.property? p r depth) := by
  have hcuts := ht.bare.cuts hr
  rw [property, piece_eq hcuts, ok_bind, findAtDepth_eq ht depth]
  · rfl
  · intro f hf
    obtain ⟨c, d, hc, -, hlt, -, hextent⟩ :=
      Pattern.foundFrom_of_mem_all hcuts.stop_le (Cursor.in_ofSlice hcuts.le hcuts.start) hf
    have hstop := hcuts.stop_le
    rw [hextent]
    simp only
    omega

/-! ### Lines -/

/-- Where the last line of a text starts, when the text stands at `pos` in a line that starts at
`start`. -/
def lineStartFrom (start pos : Nat) : Cells → Nat
  | [] => start
  | c :: cs =>
    if c.char = '\n' then lineStartFrom (pos + 1) (pos + 1) cs else lineStartFrom start (pos + 1) cs

/-- The offset at which the line of an offset starts: behind the last line feed before it. -/
def lineStart (t : Text) (offset : Nat) : Guarded Nat := do
  return lineStartFrom 0 0 (← piece t.bare ⟨0, offset⟩)

/-- The column of an offset in the line index tells where its line starts. -/
theorem lineStartFrom_eq {offset start : Nat} (line pos : Nat) (cs : Cells) (h : start ≤ offset) :
    offset + 1 - (LineIndex.locate line start (LineIndex.startsFrom pos cs) offset).2 =
      lineStartFrom start pos (cs.take (offset - pos)) := by
  induction cs generalizing line start pos with
  | nil =>
    rw [LineIndex.startsFrom, LineIndex.locate, List.take_nil, lineStartFrom]
    simp only
    omega
  | cons c cs ih =>
    by_cases hpos : pos < offset
    · have htake : (c :: cs).take (offset - pos) = c :: cs.take (offset - (pos + 1)) := by
        rw [show offset - pos = offset - (pos + 1) + 1 by omega, List.take_succ_cons]
      rw [htake, LineIndex.startsFrom, lineStartFrom]
      by_cases hc : c.char = '\n'
      · rw [if_pos hc, if_pos hc, LineIndex.locate, if_pos (by omega), ih _ _ (by omega)]
      · rw [if_neg hc, if_neg hc, ih _ _ h]
    · rw [show offset - pos = 0 by omega, List.take_zero, lineStartFrom, LineIndex.startsFrom]
      by_cases hc : c.char = '\n'
      · rw [if_pos hc, LineIndex.locate, if_neg (by omega)]
        simp only
        omega
      · rw [if_neg hc, ih _ _ h, show offset - (pos + 1) = 0 by omega, List.take_zero, lineStartFrom]

theorem slice_from_start (cs : Cells) (i : Nat) : cs.slice ⟨0, i⟩ = cs.take i := rfl

theorem text_lineStart_eq (ht : Lined S t) (offset : Nat) :
    t.lineStart offset = lineStartFrom 0 0 (t.bare.take offset) := by
  rw [Text.lineStart, LineIndex.position, ht.starts_eq, lineStartFrom_eq 1 0 _ (Nat.zero_le offset)]
  rfl

theorem lineStart_eq (ht : Lined S t) {offset : Nat} (h : t.bare.isBoundary offset = true) :
    lineStart t offset = .ok (t.lineStart offset) := by
  have hcuts : t.bare.Cuts ⟨0, offset⟩ := ⟨Nat.zero_le _, ht.bare.whole.isBoundary_zero, h⟩
  rw [lineStart, piece_eq hcuts, ok_bind, slice_from_start, text_lineStart_eq ht]
  rfl

theorem lineStartFrom_append (start pos : Nat) (cs ds : Cells) :
    lineStartFrom start pos (cs ++ ds) =
      lineStartFrom (lineStartFrom start pos cs) (pos + cs.length) ds := by
  induction cs generalizing start pos with
  | nil => rfl
  | cons c cs ih =>
    rw [List.cons_append, lineStartFrom, lineStartFrom, List.length_cons,
      show pos + (cs.length + 1) = pos + 1 + cs.length by omega]
    split <;> rw [ih]

/-- A text has no line feed, or it ends with a last line behind one. -/
theorem cases_lineStartFrom (start pos : Nat) (cs : Cells) :
    (lineStartFrom start pos cs = start ∧ ∀ y ∈ cs, y.char ≠ '\n') ∨
      ∃ front x back, cs = front ++ x :: back ∧ x.char = '\n' ∧ (∀ y ∈ back, y.char ≠ '\n') ∧
        lineStartFrom start pos cs = pos + front.length + 1 := by
  induction cs generalizing start pos with
  | nil => exact Or.inl ⟨rfl, nofun⟩
  | cons c cs ih =>
    rw [lineStartFrom]
    by_cases hc : c.char = '\n'
    · rw [if_pos hc]
      refine Or.inr ?_
      rcases ih (pos + 1) (pos + 1) with ⟨heq, hnone⟩ | ⟨front, x, back, hcs, hx, hback, heq⟩
      · exact ⟨[], c, cs, rfl, hc, hnone, by simpa using heq⟩
      · refine ⟨c :: front, x, back, by rw [hcs]; rfl, hx, hback, ?_⟩
        rw [heq, List.length_cons]
        omega
    · rw [if_neg hc]
      rcases ih start (pos + 1) with ⟨heq, hnone⟩ | ⟨front, x, back, hcs, hx, hback, heq⟩
      · refine Or.inl ⟨heq, fun y hy => ?_⟩
        rcases List.mem_cons.mp hy with rfl | hy
        · exact hc
        · exact hnone y hy
      · refine Or.inr ⟨c :: front, x, back, by rw [hcs]; rfl, hx, hback, ?_⟩
        rw [heq, List.length_cons]
        omega

theorem startsLine_lineStart (ht : Lined S t) {offset : Nat} (h : offset ≤ t.bare.length) :
    t.bare.StartsLine (t.lineStart offset) ∧ t.lineStart offset ≤ offset := by
  rw [text_lineStart_eq ht]
  rcases cases_lineStartFrom 0 0 (t.bare.take offset) with
    ⟨heq, -⟩ | ⟨front, x, back, hsplit, hx, -, heq⟩
  · rw [heq]
    exact ⟨Or.inl rfl, Nat.zero_le _⟩
  · have hlength := congrArg List.length hsplit
    simp only [List.length_take, List.length_append, List.length_cons] at hlength
    rw [heq]
    refine ⟨Or.inr ⟨by omega, x, ?_, hx⟩, by omega⟩
    have hat : (t.bare.take offset)[front.length]? = some x := by simp [hsplit]
    rw [List.getElem?_take_of_lt (by omega)] at hat
    simpa using hat

/-- The lines between the floor and an offset, the last one first: the line that ends at the offset,
and then the lines above it. -/
theorem reverse_lines (ht : Lined S t) {floor above : Nat} (hle : floor ≤ above)
    (habove : above ≤ t.bare.length) :
    let previous := max (t.lineStart above) floor
    previous ≤ above ∧ (floor < previous → t.bare.StartsLine previous) ∧
      ((t.bare.slice ⟨floor, above⟩).lines floor).reverse =
        (previous, t.bare.slice ⟨previous, above⟩) ::
          if previous ≤ floor then []
          else ((t.bare.slice ⟨floor, previous - 1⟩).lines floor).reverse := by
  intro previous
  obtain ⟨hstarts, hstart_le⟩ := startsLine_lineStart ht habove
  have hprevious : previous ≤ above := max_le hstart_le hle
  refine ⟨hprevious, ?_, ?_⟩
  · intro hlt
    have heq : previous = t.lineStart above := by omega
    rwa [heq]
  -- the text up to the offset is the text up to the floor and the lines
  have hsplit : t.bare.take above = t.bare.take floor ++ t.bare.slice ⟨floor, above⟩ := by
    have := List.take_append_drop floor (t.bare.take above)
    rw [List.take_take, Nat.min_eq_left hle, List.drop_take] at this
    exact this.symm
  have hfloor : lineStartFrom 0 0 (t.bare.take floor) ≤ floor := by
    rw [← text_lineStart_eq ht]
    exact (startsLine_lineStart ht (hle.trans habove)).2
  have hline : t.lineStart above =
      lineStartFrom (lineStartFrom 0 0 (t.bare.take floor)) floor (t.bare.slice ⟨floor, above⟩) := by
    rw [text_lineStart_eq ht, hsplit, lineStartFrom_append, List.length_take,
      Nat.min_eq_left (hle.trans habove), Nat.zero_add]
  rcases cases_lineStartFrom (lineStartFrom 0 0 (t.bare.take floor)) floor
    (t.bare.slice ⟨floor, above⟩) with ⟨heq, hnone⟩ | ⟨front, x, back, hcs, hx, hback, heq⟩
  · have hmax : previous = floor := max_eq_right (by rw [hline, heq]; exact hfloor)
    rw [hmax, if_pos le_rfl, Cells.lines, Cells.linesFrom_of_no_feed hnone]
    rfl
  · have hmax : previous = floor + front.length + 1 := by
      show max (t.lineStart above) floor = _
      rw [hline, heq]
      omega
    have hlength := congrArg List.length hcs
    rw [Cells.length_slice habove, List.length_append, List.length_cons] at hlength
    simp only at hlength
    have hfront : t.bare.slice ⟨floor, previous - 1⟩ = front := by
      have htake := Cells.take_slice t.bare ⟨floor, above⟩ (show previous - 1 ≤ above by omega)
      rw [← htake, hcs, hmax]
      simp
    have hback' : t.bare.slice ⟨previous, above⟩ = back := by
      have hdrop := Cells.drop_slice t.bare ⟨floor, above⟩ (front.length + 1)
      rw [hcs] at hdrop
      simp only at hdrop
      rw [hmax, show floor + front.length + 1 = floor + (front.length + 1) by omega, ← hdrop]
      simp
    rw [if_neg (by omega), hfront, hback', hcs, Cells.lines, Cells.linesFrom_append_feed hx,
      Cells.lines, Cells.linesFrom_of_no_feed hback, hmax]
    simp [Cells.lines]

/-- Goes up over attribute lines. -/
def attributeLoop (t : Text) (floor : Nat) : Nat → Nat → Bool → Guarded (Nat × Bool)
  | 0, _, _ => .error .endless
  | rounds + 1, start, obsolete =>
    if floor < start then do
      let above ← minus start 1
      let previous := max (← lineStart t above) floor
      let line ← piece t.bare ⟨previous, above⟩
      if isAttributeLine line then
        attributeLoop t floor rounds previous (obsolete || isObsoleteAttribute line)
      else return (start, obsolete)
    else return (start, obsolete)

/-- Where the attribute lines directly above a header start, and whether one of them is
`[Obsolete]`. -/
def attributes (t : Text) (header floor : Nat) : Guarded (Nat × Bool) := do
  attributeLoop t floor (header + 1) (← lineStart t header) false

/-- A line feed is between two boundaries. -/
theorem isBoundary_of_startsLine (ht : Lined S t) {i : Nat} (h : t.bare.StartsLine i)
    (hi : 0 < i) : t.bare.isBoundary (i - 1) = true ∧ S.isBoundary i = true := by
  rcases h with rfl | ⟨-, x, hx, hxchar⟩
  · omega
  · have hsnug := ht.bare.snug_single hx (by rw [hxchar]; rfl) (by rw [hxchar]; decide)
    refine ⟨(ht.bare.whole.isBoundary_of_ascii hx (by rw [hxchar]; rfl)).1, ?_⟩
    have := hsnug.stop
    rwa [show i - 1 + 1 = i by omega] at this

theorem exists_attributeLoop (ht : Lined S t) {floor : Nat}
    (hfloor : t.bare.isBoundary floor = true) (rounds start : Nat) (hrounds : start < rounds)
    (hstart : start ≤ t.bare.length)
    (hline : floor < start → t.bare.StartsLine start) (obsolete : Bool) :
    ∃ result, attributeLoop t floor rounds start obsolete = .ok result ∧
      result = (if start ≤ floor then (start, obsolete)
        else attributeRun start obsolete
          ((t.bare.slice ⟨floor, start - 1⟩).lines floor).reverse) ∧
      result.1 ≤ start ∧ (result.1 = start ∨ result.1 = floor ∨ t.bare.StartsLine result.1) := by
  induction rounds generalizing start obsolete with
  | zero => omega
  | succ rounds ih =>
    rw [attributeLoop]
    by_cases hlt : floor < start
    · have hline' := isBoundary_of_startsLine ht (hline hlt) (by omega)
      have habove : start - 1 ≤ t.bare.length := by omega
      obtain ⟨hle, hprevious, hlines⟩ := reverse_lines ht (show floor ≤ start - 1 by omega) habove
      have hcuts : t.bare.Cuts ⟨max (t.lineStart (start - 1)) floor, start - 1⟩ := by
        refine ⟨hle, ?_, hline'.1⟩
        by_cases hmax : floor < max (t.lineStart (start - 1)) floor
        · exact ht.bare.isBoundary (isBoundary_of_startsLine ht (hprevious hmax) (by omega)).2
        · rw [show max (t.lineStart (start - 1)) floor = floor by omega]
          exact hfloor
      simp only [if_pos hlt, minus_eq (show 1 ≤ start by omega), ok_bind, lineStart_eq ht hline'.1,
        piece_eq hcuts]
      rw [if_neg (show ¬ start ≤ floor by omega), hlines, attributeRun]
      by_cases hattribute :
          isAttributeLine (t.bare.slice ⟨max (t.lineStart (start - 1)) floor, start - 1⟩) = true
      · rw [if_pos hattribute, if_pos hattribute]
        obtain ⟨result, hrun, hresult, hresult_le, hplace⟩ := ih
          (max (t.lineStart (start - 1)) floor) (by omega) (by omega) hprevious
          (obsolete || isObsoleteAttribute
            (t.bare.slice ⟨max (t.lineStart (start - 1)) floor, start - 1⟩))
        refine ⟨result, hrun, ?_, by omega, ?_⟩
        · rw [hresult]
          by_cases hend : max (t.lineStart (start - 1)) floor ≤ floor
          · rw [if_pos hend, if_pos hend]
            rfl
          · rw [if_neg hend, if_neg hend]
        · rcases hplace with heq | hplace
          · rw [heq]
            by_cases hmax : floor < max (t.lineStart (start - 1)) floor
            · exact Or.inr (Or.inr (hprevious hmax))
            · exact Or.inr (Or.inl (by omega))
          · exact Or.inr hplace
      · rw [if_neg hattribute, if_neg hattribute]
        exact ⟨_, rfl, rfl, le_rfl, Or.inl rfl⟩
    · rw [if_neg hlt, if_pos (by omega)]
      exact ⟨_, rfl, rfl, le_rfl, Or.inl rfl⟩

/-- **The attribute lines above a header** are found without a fault. They start with a line or at
the floor, and not behind the header. -/
theorem attributes_eq (ht : Lined S t) {header floor : Nat} (hheader : S.isBoundary header = true)
    (hfloor : S.isBoundary floor = true) :
    attributes t header floor = .ok (t.attributes header floor) ∧
      (t.attributes header floor).1 ≤ header ∧
      ((t.attributes header floor).1 = floor ∨
        t.bare.StartsLine (t.attributes header floor).1) := by
  have hheader' := ht.bare.isBoundary hheader
  obtain ⟨hstarts, hle⟩ := startsLine_lineStart ht (Cells.le_length_of_isBoundary hheader')
  have hlength := Cells.le_length_of_isBoundary hheader'
  obtain ⟨result, hrun, hresult, hresult_le, hplace⟩ := exists_attributeLoop ht
    (ht.bare.isBoundary hfloor) (header + 1) (t.lineStart header) (by omega)
    (by omega) (fun _ => hstarts) false
  have hmodel : t.attributes header floor = result := by
    rw [hresult]
    rfl
  rw [hmodel, attributes, lineStart_eq ht hheader', ok_bind]
  refine ⟨hrun, by omega, ?_⟩
  rcases hplace with heq | heq | hplace
  · rw [heq]
    exact Or.inr hstarts
  · exact Or.inl heq
  · exact Or.inr hplace

/-! ### Arguments -/

theorem mapM_eq {f : α → Guarded β} {g : α → β} {l : List α} (h : ∀ a ∈ l, f a = .ok (g a)) :
    l.mapM f = .ok (l.map g) := by
  induction l with
  | nil => rfl
  | cons a l ih =>
    rw [List.mapM_cons, h a List.mem_cons_self, ok_bind,
      ih fun b hb => h b (List.mem_cons_of_mem a hb)]
    rfl

/-- An interval without the blanks at its ends. -/
def trim (t : Text) (r : Extent) : Guarded Extent := do
  let part ← piece t.bare r
  let start := r.start + part.leadingBlanks
  let stop ← minus r.stop part.trailingBlanks
  return ⟨start, max stop start⟩

/-- The arguments between two parentheses. -/
def arguments (t : Text) (r : Extent) : Guarded (List Extent) := do
  let part ← piece t.bare r
  if part.isBlank then return [] else (piecesFrom 0 r.start r.start part).mapM (trim t)

theorem trim_eq (ht : t.Copies S) (hr : S.Cuts r) : trim t r = .ok (t.trim r) := by
  have hcuts := ht.bare.cuts hr
  obtain ⟨hle, -⟩ := hcuts.trailing ht.bare.whole
  rw [trim, piece_eq hcuts]
  simp only [ok_bind]
  rw [minus_eq (by omega)]
  rfl

theorem arguments_eq (ht : t.Copies S) (hr : S.Cuts r) :
    arguments t r = .ok (t.arguments r) := by
  have hcuts := ht.bare.cuts hr
  rw [arguments, piece_eq hcuts, ok_bind, Text.arguments]
  split
  · rfl
  · refine mapM_eq fun p hp => trim_eq ht ?_
    exact (ht.cuts_of_separated hr (by decide) (by decide) (separated_pieces hcuts) hp).1

/-! ### Declarations -/

/-- The text after a leading `var`; it is looked for only where three bytes can be cut off. -/
def stripVar (text : Cells) : Guarded (Option Cells) :=
  if (text.slice? ⟨0, 3⟩).isNone then .ok none
  else do
    let head := text.take 3
    let rest ← piece text ⟨3, text.length⟩
    return if (head.map fun c => CharClass.lower c.char) == ['v', 'a', 'r'] &&
      rest.head?.any Cell.isBlank then some (Cells.trimStart rest) else none

/-- The names before the colon of a declaration. -/
def declaredNames (text : Cells) (parameters : Bool) : Guarded (Option (List String)) := do
  let text := text.trim
  let stripped ← if parameters then stripVar text else .ok none
  let names := ((stripped.getD text).splitOn ',').map Cells.trim
  return if names.all isIdentifier then some (names.map fun n => Name.unquote n.text) else none

/-- The declarations of a list of segments. -/
def declarationsIn (t : Text) (parameters : Bool) : List Extent → Guarded (List (String × TypeInfo))
  | [] => .ok []
  | r :: rs => do
    let part ← piece t.bare r
    if part.isBlank then declarationsIn t parameters rs
    else
      match part.findChar? ':' r.start with
      | none => return []
      | some colon =>
        match ← declaredNames (← piece t.masked ⟨r.start, colon⟩) parameters with
        | none => return []
        | some names =>
          match typeOf? (← piece t.masked ⟨colon + 1, r.stop⟩) with
          | none => return []
          | some type =>
            return names.map (fun n => (n, type)) ++ (← declarationsIn t parameters rs)

/-- The declarations of an interval. -/
def declarations (t : Text) (r : Extent) (parameters : Bool) :
    Guarded (List (String × TypeInfo)) := do
  let part ← piece t.bare r
  declarationsIn t parameters (segmentsFrom r.start r.start part)

theorem utf8Size_of_lower {c : Char} (h : CharClass.lower c = 'r') : c.utf8Size = 1 := by
  unfold CharClass.lower at h
  split at h
  · rename_i hc
    exact Char.utf8Size_eq_one_iff.mpr (UInt32.le_trans hc.2 (by decide))
  · rw [h]
    rfl

/-- A text that starts with `var` can be cut behind it. -/
theorem stripVar_eq {text : Cells} (h : text.Whole) : stripVar text = .ok (stripVar? text) := by
  rw [stripVar]
  by_cases hcut : text.isBoundary 3 = true
  · have hsome : (text.slice? ⟨0, 3⟩).isNone = false := by
      rw [Cells.slice?, if_pos ⟨Nat.zero_le _, h.isBoundary_zero, hcut⟩]
      rfl
    have hcuts : text.Cuts ⟨3, text.length⟩ :=
      ⟨Cells.le_length_of_isBoundary hcut, hcut, Cells.isBoundary_length text⟩
    rw [hsome, piece_eq hcuts, slice_to_end]
    rfl
  · have hnone : (text.slice? ⟨0, 3⟩).isNone = true := by
      rw [Cells.slice?, if_neg fun hall => hcut hall.2.2]
      rfl
    -- the third byte would be a letter, and a boundary would follow it
    have hhead : ¬ ((text.take 3).map fun c => CharClass.lower c.char) = ['v', 'a', 'r'] := by
      intro hhead
      have hthird := congrArg (fun l => l[2]?) hhead
      simp only [List.getElem?_map, List.getElem?_take_of_lt (show 2 < 3 by omega)] at hthird
      obtain ⟨x, hx, hlower⟩ := Option.map_eq_some_iff.mp hthird
      exact hcut (h.isBoundary_of_ascii hx (utf8Size_of_lower hlower)).2
    rw [if_pos hnone, stripVar?, beq_eq_false_iff_ne.mpr hhead]
    rfl

theorem declaredNames_eq {text : Cells} (h : text.Whole) (parameters : Bool) :
    declaredNames text parameters = .ok (declaredNames? text parameters) := by
  rw [declaredNames, declaredNames?]
  cases parameters with
  | false => rfl
  | true =>
    simp only [if_true]
    rw [stripVar_eq h.trim]
    rfl

/-- What stands before and behind the colon of a segment can be cut out. -/
theorem cuts_colon (ht : t.Copies S) (hr : S.Cuts r) {colon : Nat}
    (h : (t.bare.slice r).findChar? ':' r.start = some colon) :
    S.Cuts ⟨r.start, colon⟩ ∧ S.Cuts ⟨colon + 1, r.stop⟩ := by
  obtain ⟨hle, hlt, x, hx, hxchar⟩ := (Cells.hasAt_findChar? h).of_slice
  have hsnug := ht.bare.snug_single hx (by rw [hxchar]; rfl) (by rw [hxchar]; decide)
  exact ⟨⟨hle, hr.start, hsnug.start⟩, ⟨hlt, hsnug.stop, hr.stop⟩⟩

theorem declarationsIn_eq (ht : t.Copies S) (parameters : Bool) {rs : List Extent}
    (hrs : ∀ r ∈ rs, S.Cuts r) :
    declarationsIn t parameters rs = .ok (t.declarationsIn parameters rs) := by
  induction rs with
  | nil => rfl
  | cons r rs ih =>
    have hr := hrs r List.mem_cons_self
    have ih := ih fun r' hr' => hrs r' (List.mem_cons_of_mem r hr')
    rw [declarationsIn, piece_eq (ht.bare.cuts hr), ok_bind, ih, Text.declarationsIn]
    split
    · rfl
    · rw [Text.declaration?]
      cases hcolon : (t.bare.slice r).findChar? ':' r.start with
      | none => rfl
      | some colon =>
        obtain ⟨hbefore, hbehind⟩ := cuts_colon ht hr hcolon
        have hbefore := ht.masked.cuts hbefore
        simp only
        rw [piece_eq hbefore, ok_bind,
          declaredNames_eq (ht.masked.whole.slice hbefore.start hbefore.stop), ok_bind,
          piece_eq (ht.masked.cuts hbehind)]
        cases declaredNames? (t.masked.slice ⟨r.start, colon⟩) parameters with
        | none => rfl
        | some names =>
          cases htype : typeOf? (t.masked.slice ⟨colon + 1, r.stop⟩) with
          | none => simp [htype, pure, Except.pure]
          | some type => simp [htype, pure, Except.pure]

/-- **The declarations of an interval** are read without a fault. -/
theorem declarations_eq (ht : t.Copies S) (hr : S.Cuts r) (parameters : Bool) :
    declarations t r parameters = .ok (t.declarations r parameters) := by
  rw [declarations, piece_eq (ht.bare.cuts hr), ok_bind,
    declarationsIn_eq ht parameters fun p hp => ht.cuts_segment hr hp]
  rfl

end Guarded
end TreeLint
