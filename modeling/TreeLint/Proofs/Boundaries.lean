/-
# Characters and their boundaries

A text is the bytes of a list of characters; cut at character boundaries its
pieces are texts again. A scanned copy of a text has some characters replaced,
each by as many blanks as it has bytes (`Cells.Blanks`). So a boundary of the
text is a boundary of the copy, and a boundary of the copy is one of the text
unless it lies between two such blanks: next to anything else than a blank the
two agree. Both copies that the front end scans are of this kind, because the
scanner never changes its mind within a character.

Key definitions: `Cells.Whole`, `Cells.Blanks`, `Source.Expects`.
Key theorems: `Cells.Whole.drop`, `Cells.Blanks.isBoundary_of_ne_space`,
`Source.blanks_masked`, `Source.blanks_bare`.
-/
import Mathlib.Data.List.TakeWhile
import TreeLint.Source.Mask

namespace TreeLint
namespace Cells

/-- The bytes are those of a list of characters. -/
def Whole (cs : Cells) : Prop := ∃ l, cs = ofChars l

theorem ofChars_cons (c : Char) (l : List Char) : ofChars (c :: l) = Cell.ofChar c ++ ofChars l := by
  simp [ofChars]

theorem ofChars_append (l l' : List Char) : ofChars (l ++ l') = ofChars l ++ ofChars l' := by
  simp [ofChars]

theorem whole_nil : Whole [] := ⟨[], rfl⟩

theorem whole_ofString (s : String) : (ofString s).Whole := ⟨s.toList, rfl⟩

theorem Whole.append {a b : Cells} (ha : a.Whole) (hb : b.Whole) : (a ++ b).Whole := by
  obtain ⟨l, rfl⟩ := ha
  obtain ⟨l', rfl⟩ := hb
  exact ⟨l ++ l', (ofChars_append l l').symm⟩

theorem whole_ofChar (c : Char) : Whole (Cell.ofChar c) := ⟨[c], by simp [ofChars]⟩

theorem length_ofChars (l : List Char) : (ofChars l).length = (String.ofList l).utf8ByteSize := by
  induction l with
  | nil => rfl
  | cons c l ih =>
    have hcons : String.ofList (c :: l) = String.singleton c ++ String.ofList l := by
      rw [← String.toList_inj]
      simp
    rw [hcons, String.utf8ByteSize_append, ← ih]
    simp [ofChars, length_ofChar]

theorem length_ofString (s : String) : (ofString s).length = s.utf8ByteSize := by
  rw [ofString, length_ofChars, String.ofList_toList]

theorem ofChars_replicate_space (n : Nat) :
    ofChars (List.replicate n ' ') = List.replicate n Cell.space := by
  induction n with
  | zero => rfl
  | succ n ih => rw [List.replicate_succ, List.replicate_succ, ofChars_cons, ih]; rfl

/-! ### Boundaries -/

theorem isBoundary_iff {cs : Cells} {i : Nat} :
    cs.isBoundary i = true ↔ i ≤ cs.length ∧ ∀ x, cs[i]? = some x → x.lead = true := by
  unfold isBoundary
  cases h : cs[i]? with
  | none =>
    have hle : cs.length ≤ i := List.getElem?_eq_none_iff.mp h
    simp only [beq_iff_eq, reduceCtorEq, false_implies, implies_true, and_true]
    omega
  | some x =>
    have hlt : i < cs.length := (List.getElem?_eq_some_iff.mp h).1
    simp only [Option.some.injEq, forall_eq']
    constructor
    · intro hx
      exact ⟨by omega, hx⟩
    · exact fun hx => hx.2

theorem le_length_of_isBoundary {cs : Cells} {i : Nat} (h : cs.isBoundary i = true) :
    i ≤ cs.length := (isBoundary_iff.mp h).1

theorem isBoundary_length (cs : Cells) : cs.isBoundary cs.length = true := by
  rw [isBoundary_iff]
  simp

theorem lead_of_isBoundary {cs : Cells} {i : Nat} {x : Cell} (h : cs.isBoundary i = true)
    (hx : cs[i]? = some x) : x.lead = true := (isBoundary_iff.mp h).2 x hx

theorem getElem?_ofChar (c : Char) (i : Nat) :
    (Cell.ofChar c)[i]? = if i < c.utf8Size then some ⟨c, i == 0⟩ else none := by
  have hpos := c.utf8Size_pos
  cases i with
  | zero => simp [Cell.ofChar, hpos]
  | succ i =>
    simp only [Cell.ofChar, List.getElem?_cons_succ, List.getElem?_replicate]
    by_cases h : i + 1 < c.utf8Size
    · rw [if_pos (by omega), if_pos h]
      rfl
    · rw [if_neg (by omega), if_neg h]

/-- Within a character no further one starts. -/
theorem isBoundary_ofChar_append {c : Char} {cs : Cells} {i : Nat} :
    (Cell.ofChar c ++ cs).isBoundary i = true ↔
      i = 0 ∨ c.utf8Size ≤ i ∧ cs.isBoundary (i - c.utf8Size) = true := by
  have hpos := c.utf8Size_pos
  have hlength := length_ofChar c
  simp only [isBoundary_iff, List.length_append, hlength]
  by_cases hi : i < c.utf8Size
  · have hcell : (Cell.ofChar c ++ cs)[i]? = some ⟨c, i == 0⟩ := by
      rw [List.getElem?_append_left (by omega), getElem?_ofChar, if_pos hi]
    rw [hcell]
    constructor
    · rintro ⟨-, hlead⟩
      exact Or.inl (by simpa using hlead _ rfl)
    · rintro (rfl | h)
      · simp
      · omega
  · have hcell : (Cell.ofChar c ++ cs)[i]? = cs[i - c.utf8Size]? := by
      rw [List.getElem?_append_right (by omega), hlength]
    rw [hcell]
    constructor
    · rintro ⟨hle, hlead⟩
      exact Or.inr ⟨by omega, by omega, hlead⟩
    · rintro (rfl | ⟨-, hle, hlead⟩)
      · omega
      · exact ⟨by omega, hlead⟩

theorem Whole.isBoundary_zero {cs : Cells} (h : cs.Whole) : cs.isBoundary 0 = true := by
  obtain ⟨l, rfl⟩ := h
  cases l with
  | nil => rfl
  | cons c l =>
    rw [ofChars_cons, isBoundary_ofChar_append]
    exact Or.inl rfl

/-- **Cut at a boundary, a text falls into two texts.** -/
theorem Whole.split {cs : Cells} (h : cs.Whole) {i : Nat} (hi : cs.isBoundary i = true) :
    Whole (cs.take i) ∧ Whole (cs.drop i) := by
  obtain ⟨l, rfl⟩ := h
  induction l generalizing i with
  | nil => simp [ofChars, whole_nil]
  | cons c l ih =>
    have hlength := length_ofChar c
    rw [ofChars_cons] at hi ⊢
    rcases isBoundary_ofChar_append.mp hi with rfl | ⟨hle, hrest⟩
    · exact ⟨whole_nil, (whole_ofChar c).append ⟨l, rfl⟩⟩
    · obtain ⟨htake, hdrop⟩ := ih hrest
      constructor
      · rw [List.take_append, List.take_of_length_le (by omega), hlength]
        exact (whole_ofChar c).append htake
      · rw [List.drop_append, List.drop_of_length_le (by omega), hlength, List.nil_append]
        exact hdrop

/-- At a boundary before the end stands a whole character. -/
theorem Whole.exists_ofChar {cs : Cells} (h : cs.Whole) {i : Nat} (hi : cs.isBoundary i = true)
    (hlt : i < cs.length) : ∃ c rest, cs.drop i = Cell.ofChar c ++ rest ∧ Whole rest := by
  obtain ⟨l, hl⟩ := (h.split hi).2
  cases l with
  | nil =>
    have : (cs.drop i).length = 0 := by
      rw [hl]
      rfl
    rw [List.length_drop] at this
    omega
  | cons c l => exact ⟨c, ofChars l, by rw [hl, ofChars_cons], l, rfl⟩

theorem isBoundary_drop {cs : Cells} {i j : Nat} (hij : i ≤ j) (hj : j ≤ cs.length) :
    isBoundary (cs.drop i) (j - i) = cs.isBoundary j := by
  rw [Bool.eq_iff_iff, isBoundary_iff, isBoundary_iff, List.getElem?_drop, List.length_drop,
    show i + (j - i) = j by omega]
  constructor
  · exact fun h => ⟨hj, h.2⟩
  · exact fun h => ⟨by omega, h.2⟩

/-- **The next boundary is where the character ends.** -/
theorem Whole.next {cs : Cells} (h : cs.Whole) {i : Nat} (hi : cs.isBoundary i = true) {x : Cell}
    (hx : cs[i]? = some x) :
    i + x.char.utf8Size ≤ cs.length ∧ cs.isBoundary (i + x.char.utf8Size) = true ∧
    (∀ k < x.char.utf8Size, ∃ y, cs[i + k]? = some y ∧ y.char = x.char) ∧
    ∀ j, i < j → cs.isBoundary j = true → i + x.char.utf8Size ≤ j := by
  have hlt : i < cs.length := (List.getElem?_eq_some_iff.mp hx).1
  obtain ⟨c, rest, hdrop, hrest⟩ := h.exists_ofChar hi hlt
  have hpos := c.utf8Size_pos
  have hlength : cs.length = i + (c.utf8Size + rest.length) := by
    have := congrArg List.length hdrop
    rw [List.length_drop, List.length_append, length_ofChar] at this
    omega
  have hcell : ∀ k < c.utf8Size, cs[i + k]? = some ⟨c, k == 0⟩ := by
    intro k hk
    rw [← List.getElem?_drop, hdrop, List.getElem?_append_left (by rw [length_ofChar]; omega),
      getElem?_ofChar, if_pos hk]
  have hxc : x = ⟨c, true⟩ := by
    have := hcell 0 hpos
    rw [Nat.add_zero, hx] at this
    simpa using this
  subst hxc
  refine ⟨by simp only; omega, ?_, fun k hk => ⟨_, hcell k hk, rfl⟩, ?_⟩
  · rw [← isBoundary_drop (i := i) (by omega) (by simp only; omega), hdrop,
      isBoundary_ofChar_append]
    refine Or.inr ⟨by simp only; omega, ?_⟩
    rw [show i + c.utf8Size - i - c.utf8Size = 0 by omega]
    exact hrest.isBoundary_zero
  · intro j hij hj
    rw [← isBoundary_drop (i := i) (by omega) (le_length_of_isBoundary hj), hdrop,
      isBoundary_ofChar_append] at hj
    simp only
    omega

/-- A byte that starts no character continues the one before it, which is not an ASCII one. -/
theorem Whole.continued {cs : Cells} (h : cs.Whole) {i : Nat} {x : Cell} (hx : cs[i]? = some x)
    (hlead : x.lead = false) :
    0 < i ∧ (∃ y, cs[i - 1]? = some y ∧ y.char = x.char) ∧ 1 < x.char.utf8Size := by
  obtain ⟨l, rfl⟩ := h
  induction l generalizing i with
  | nil => simp [ofChars] at hx
  | cons c l ih =>
    have hlength := length_ofChar c
    rw [ofChars_cons] at hx ⊢
    by_cases hi : i < c.utf8Size
    · rw [List.getElem?_append_left (by omega), getElem?_ofChar, if_pos hi] at hx
      cases hx
      have hne : i ≠ 0 := by simpa using hlead
      refine ⟨by omega, ⟨⟨c, i - 1 == 0⟩, ?_, rfl⟩, by simp only; omega⟩
      rw [List.getElem?_append_left (by omega), getElem?_ofChar, if_pos (by omega)]
    · rw [List.getElem?_append_right (by omega), hlength] at hx
      obtain ⟨hpos, ⟨y, hy, hchar⟩, hsize⟩ := ih hx
      refine ⟨by omega, ⟨y, ?_, hchar⟩, hsize⟩
      rw [List.getElem?_append_right (by omega), hlength,
        show i - 1 - c.utf8Size = i - c.utf8Size - 1 by omega]
      exact hy

/-- An ASCII character stands between two boundaries. -/
theorem Whole.isBoundary_of_ascii {cs : Cells} (h : cs.Whole) {i : Nat} {x : Cell}
    (hx : cs[i]? = some x) (hsize : x.char.utf8Size = 1) :
    cs.isBoundary i = true ∧ cs.isBoundary (i + 1) = true := by
  have hi : cs.isBoundary i = true := by
    rw [isBoundary_iff]
    refine ⟨(List.getElem?_eq_some_iff.mp hx).1.le, ?_⟩
    intro y hy
    obtain rfl := Option.some.inj (hx.symm.trans hy)
    by_contra hlead
    have := (h.continued hx (by simpa using hlead)).2.2
    omega
  refine ⟨hi, ?_⟩
  have := (h.next hi hx).2.1
  rwa [hsize] at this

/-! ### Blanked copies -/

/-- The second text is the first with some characters replaced, each by as many blanks as it has
bytes. -/
inductive Blanks : Cells → Cells → Prop
  | nil : Blanks [] []
  | keep (c : Char) {cs ds : Cells} : Blanks cs ds → Blanks (Cell.ofChar c ++ cs) (Cell.ofChar c ++ ds)
  | hide (c : Char) {cs ds : Cells} : Blanks cs ds →
      Blanks (Cell.ofChar c ++ cs) (List.replicate c.utf8Size Cell.space ++ ds)

namespace Blanks

variable {cs ds : Cells}

theorem whole_replicate (n : Nat) : Whole (List.replicate n Cell.space) :=
  ⟨List.replicate n ' ', (ofChars_replicate_space n).symm⟩

theorem length_eq (h : Blanks cs ds) : ds.length = cs.length := by
  induction h with
  | nil => rfl
  | keep c _ ih => simp [ih]
  | hide c _ ih => simp [length_ofChar, ih]

theorem whole_left (h : Blanks cs ds) : cs.Whole := by
  induction h with
  | nil => exact whole_nil
  | keep c _ ih => exact (whole_ofChar c).append ih
  | hide c _ ih => exact (whole_ofChar c).append ih

/-- The copy is a text. -/
theorem whole (h : Blanks cs ds) : ds.Whole := by
  induction h with
  | nil => exact whole_nil
  | keep c _ ih => exact (whole_ofChar c).append ih
  | hide c _ ih => exact (whole_replicate _).append ih

theorem isBoundary_replicate_append {n i : Nat} :
    isBoundary (List.replicate n Cell.space ++ ds) i = true ↔
      i < n ∨ n ≤ i ∧ ds.isBoundary (i - n) = true := by
  rw [isBoundary_iff, isBoundary_iff]
  by_cases hi : i < n
  · rw [List.getElem?_append_left (by simpa using hi)]
    simp [hi, Cell.space]
    omega
  · rw [List.getElem?_append_right (by simpa using hi), List.length_append, List.length_replicate]
    constructor
    · exact fun h => Or.inr ⟨by omega, by omega, h.2⟩
    · rintro (h | ⟨-, hle, h⟩)
      · omega
      · exact ⟨by omega, h⟩

theorem isBoundary (h : Blanks cs ds) {i : Nat} (hi : cs.isBoundary i = true) :
    ds.isBoundary i = true := by
  induction h generalizing i with
  | nil => exact hi
  | keep c _ ih =>
    rw [isBoundary_ofChar_append] at hi ⊢
    exact hi.imp_right fun h => ⟨h.1, ih h.2⟩
  | hide c _ ih =>
    have hpos := c.utf8Size_pos
    rw [isBoundary_ofChar_append] at hi
    rw [isBoundary_replicate_append]
    rcases hi with rfl | ⟨hle, hi⟩
    · exact Or.inl hpos
    · exact Or.inr ⟨hle, ih hi⟩

/-- What is no blank in the copy is as in the text. -/
theorem getElem?_of_ne_space (h : Blanks cs ds) {i : Nat} {x : Cell} (hx : ds[i]? = some x)
    (hne : x.char ≠ ' ') : cs[i]? = some x := by
  induction h generalizing i with
  | nil => cases hx
  | keep c _ ih =>
    rw [List.getElem?_append] at hx ⊢
    split at hx
    · rename_i hi
      rwa [if_pos hi]
    · rename_i hi
      rw [if_neg hi]
      exact ih hx
  | hide c _ ih =>
    rw [List.getElem?_append, List.length_replicate] at hx
    rw [List.getElem?_append, length_ofChar]
    split at hx
    · rename_i hi
      rw [List.getElem?_replicate, if_pos hi] at hx
      cases hx
      exact absurd rfl hne
    · rename_i hi
      rw [if_neg hi]
      exact ih hx

/-- **Next to anything but a blank, a boundary of the copy is one of the text.** A boundary that
the copy has on its own stands between two blanks. -/
theorem isBoundary_of_ne_space (h : Blanks cs ds) {i : Nat} (hi : ds.isBoundary i = true) {x : Cell}
    (hx : ds[i]? = some x ∨ 0 < i ∧ ds[i - 1]? = some x) (hne : x.char ≠ ' ') :
    cs.isBoundary i = true := by
  induction h generalizing i with
  | nil => exact hi
  | @keep c cs ds h ih =>
    have hlength := length_ofChar c
    rw [isBoundary_ofChar_append] at hi ⊢
    rcases hi with rfl | ⟨hle, hi⟩
    · exact Or.inl rfl
    · refine Or.inr ⟨hle, ?_⟩
      by_cases hzero : i = c.utf8Size
      · rw [hzero, Nat.sub_self]
        exact h.whole_left.isBoundary_zero
      · refine ih hi ?_
        rw [List.getElem?_append_right (by omega), List.getElem?_append_right (by omega),
          hlength] at hx
        rcases hx with hx | ⟨-, hx⟩
        · exact Or.inl hx
        · exact Or.inr ⟨by omega, by rwa [show i - 1 - c.utf8Size = i - c.utf8Size - 1 by omega] at hx⟩
  | @hide c cs ds h ih =>
    have hpos := c.utf8Size_pos
    have hblank : ∀ j, (List.replicate c.utf8Size Cell.space ++ ds)[j]? = some x →
        c.utf8Size ≤ j := by
      intro j hj
      by_contra hlt
      rw [List.getElem?_append_left (by simp; omega), List.getElem?_replicate,
        if_pos (by omega)] at hj
      cases hj
      exact hne rfl
    rw [isBoundary_ofChar_append]
    by_cases hzero : i = 0
    · exact Or.inl hzero
    · have hle : c.utf8Size ≤ i := by
        rcases hx with hx | ⟨-, hx⟩
        · exact hblank i hx
        · have := hblank (i - 1) hx
          omega
      refine Or.inr ⟨hle, ?_⟩
      by_cases hsize : i = c.utf8Size
      · rw [hsize, Nat.sub_self]
        exact h.whole_left.isBoundary_zero
      · have hi' : ds.isBoundary (i - c.utf8Size) = true := by
          rcases isBoundary_replicate_append.mp hi with h | h
          · omega
          · exact h.2
        refine ih hi' ?_
        rw [List.getElem?_append_right (by simp; omega), List.getElem?_append_right (by simp; omega),
          List.length_replicate] at hx
        rcases hx with hx | ⟨-, hx⟩
        · exact Or.inl hx
        · exact Or.inr ⟨by omega, by rwa [show i - 1 - c.utf8Size = i - c.utf8Size - 1 by omega] at hx⟩

end Blanks
end Cells

namespace Source

/-! ### The scanned copies -/

/-- The scanner stands before the character that look-ahead has promised it. -/
def Expects (s : MaskState) (cs : Cells) : Prop :=
  (s = .blockStart → cs.head?.map (·.char) = some '*') ∧
  (s = .blockEnd → cs.head?.map (·.char) = some '/') ∧
  (s = .literalQuote → cs.head?.map (·.char) = some '\'')

/-- The rest of a text with the layers of `hide` blanked, from where the scanner stands. -/
def coveredFrom (hide : Layer → Bool) (s : MaskState) (cs : Cells) : Cells :=
  List.zipWith (cover hide) (layersFrom s cs) cs

theorem coveredFrom_cons (hide : Layer → Bool) (s : MaskState) (c : Cell) (cs : Cells) :
    coveredFrom hide s (c :: cs) =
      cover hide (maskStep s c.char (cs.head?.map (·.char))).1 c ::
        coveredFrom hide (maskStep s c.char (cs.head?.map (·.char))).2 cs := by
  simp [coveredFrom, layersFrom]

theorem length_coveredFrom (hide : Layer → Bool) (s : MaskState) (cs : Cells) :
    (coveredFrom hide s cs).length = cs.length := by
  rw [coveredFrom, List.length_zipWith, length_layersFrom, Nat.min_self]

/-- What look-ahead promises stands there. -/
theorem expects_maskStep (s : MaskState) (c : Char) (cs : Cells) :
    Expects (maskStep s c (cs.head?.map (·.char))).2 cs := by
  unfold maskStep
  split
  all_goals (repeat' split) <;> simp_all [Expects]

/-- Within a character of several bytes the scanner stays where it is: it looks for ASCII
characters only. -/
theorem maskStep_of_one_lt {s : MaskState} {c : Char} {cs : Cells} (hc : 1 < c.utf8Size)
    (hs : Expects s (⟨c, true⟩ :: cs)) : ∃ layer, ∀ next, maskStep s c next = (layer, s) := by
  have hne : ∀ x : Char, x.utf8Size = 1 → c ≠ x := by
    rintro x hx rfl
    omega
  have hslash := hne '/' rfl
  have hstar := hne '*' rfl
  have hapostrophe := hne '\'' rfl
  have hquote := hne '"' rfl
  have hfeed := hne '\n' rfl
  obtain ⟨hstart, hend, hdouble⟩ := hs
  cases s with
  | code => exact ⟨.code, fun next => by simp [maskStep, hslash, hapostrophe, hquote]⟩
  | lineComment => exact ⟨.hidden, fun next => by simp [maskStep, hfeed]⟩
  | blockStart => exact absurd (Option.some.inj (hstart rfl)) hstar
  | block => exact ⟨.hidden, fun next => by simp [maskStep, hstar]⟩
  | blockEnd => exact absurd (Option.some.inj (hend rfl)) hslash
  | literal => exact ⟨.hidden, fun next => by simp [maskStep, hapostrophe]⟩
  | literalQuote => exact absurd (Option.some.inj (hdouble rfl)) hapostrophe
  | name => exact ⟨.name, fun next => by simp [maskStep, hquote, hfeed]⟩

/-- Bytes at which the scanner stays where it is get one layer. -/
theorem coveredFrom_append_of_stays {hide : Layer → Bool} {s : MaskState} {layer : Layer}
    {front : Cells} (h : ∀ x ∈ front, ∀ next, maskStep s x.char next = (layer, s)) (rest : Cells) :
    coveredFrom hide s (front ++ rest) = front.map (cover hide layer) ++ coveredFrom hide s rest := by
  induction front with
  | nil => rfl
  | cons x front ih =>
    rw [List.cons_append, coveredFrom_cons, h x List.mem_cons_self,
      ih fun y hy => h y (List.mem_cons_of_mem x hy), List.map_cons, List.cons_append]

theorem coveredFrom_replicate {hide : Layer → Bool} {s : MaskState} {layer : Layer} {x : Cell}
    (h : ∀ next, maskStep s x.char next = (layer, s)) (n : Nat) (cs : Cells) :
    coveredFrom hide s (List.replicate n x ++ cs) =
      List.replicate n (cover hide layer x) ++ coveredFrom hide s cs := by
  rw [coveredFrom_append_of_stays fun y hy => by rwa [List.eq_of_mem_replicate hy],
    List.map_replicate]

/-- Text without slashes, apostrophes and quotes is code and stays as it is. -/
theorem coveredFrom_code_append {hide : Layer → Bool} (hcode : hide .code = false) {front : Cells}
    (h : ∀ x ∈ front, x.char ∉ ['/', '\'', '"']) (rest : Cells) :
    coveredFrom hide .code (front ++ rest) = front ++ coveredFrom hide .code rest := by
  have hstays : ∀ x ∈ front, ∀ next, maskStep .code x.char next = (.code, .code) := by
    intro x hx next
    have hx := h x hx
    simp only [List.mem_cons, List.not_mem_nil, not_or] at hx
    simp [maskStep, hx]
  have hcover : front.map (cover hide .code) = front :=
    (List.map_congr_left fun x _ => by simp [cover, hcode]).trans (List.map_id _)
  rw [coveredFrom_append_of_stays hstays, hcover]

/-- A character is kept as it is or blanked as a whole. -/
theorem blanks_cover (hide : Layer → Bool) (layer : Layer) (c : Char) {cs ds : Cells}
    (h : cs.Blanks ds) : Cells.Blanks (Cell.ofChar c ++ cs)
      (cover hide layer ⟨c, true⟩ :: List.replicate (c.utf8Size - 1) (cover hide layer ⟨c, false⟩) ++
        ds) := by
  have hpos := c.utf8Size_pos
  by_cases hhide : hide layer = true ∧ c ≠ '\n' ∧ c ≠ '\r'
  · have hcover : ∀ b, cover hide layer ⟨c, b⟩ = Cell.space := fun b => if_pos hhide
    rw [hcover, hcover, ← List.replicate_succ, show c.utf8Size - 1 + 1 = c.utf8Size by omega]
    exact .hide c h
  · have hcover : ∀ b, cover hide layer ⟨c, b⟩ = ⟨c, b⟩ := fun b => if_neg hhide
    rw [hcover, hcover]
    exact .keep c h

/-- **Covering some layers of a text blanks whole characters.** -/
theorem blanks_coveredFrom (hide : Layer → Bool) (l : List Char) (s : MaskState)
    (hs : Expects s (Cells.ofChars l)) :
    (Cells.ofChars l).Blanks (coveredFrom hide s (Cells.ofChars l)) := by
  induction l generalizing s with
  | nil => exact .nil
  | cons c l ih =>
    have hpos := c.utf8Size_pos
    rw [Cells.ofChars_cons] at hs ⊢
    by_cases hc : 1 < c.utf8Size
    · -- the bytes after the first are read in the same state and get the same layer
      obtain ⟨layer, hstep⟩ := maskStep_of_one_lt hc hs
      have hcovered : coveredFrom hide s (Cell.ofChar c ++ Cells.ofChars l) =
          cover hide layer ⟨c, true⟩ ::
            List.replicate (c.utf8Size - 1) (cover hide layer ⟨c, false⟩) ++
              coveredFrom hide s (Cells.ofChars l) := by
        rw [Cell.ofChar, List.cons_append, coveredFrom_cons, hstep,
          coveredFrom_replicate hstep, List.cons_append]
      have hnext : Expects s (Cells.ofChars l) := by
        have := expects_maskStep s c (Cells.ofChars l)
        rwa [hstep] at this
      rw [hcovered]
      exact blanks_cover hide layer c (ih s hnext)
    · have hone : Cell.ofChar c = [⟨c, true⟩] := by
        rw [Cell.ofChar, show c.utf8Size - 1 = 0 by omega]
        rfl
      have hblanks := blanks_cover hide
        (maskStep s c ((Cells.ofChars l).head?.map (·.char))).1 c
        (ih _ (expects_maskStep s c (Cells.ofChars l)))
      rw [show c.utf8Size - 1 = 0 by omega, List.replicate_zero] at hblanks
      rw [hone] at hblanks ⊢
      rw [List.singleton_append, coveredFrom_cons]
      exact hblanks

theorem expects_code (cs : Cells) : Expects .code cs := ⟨nofun, nofun, nofun⟩

theorem blanks_masked {cs : Cells} (h : cs.Whole) : cs.Blanks (masked cs) := by
  obtain ⟨l, rfl⟩ := h
  exact blanks_coveredFrom _ l .code (expects_code _)

theorem blanks_bare {cs : Cells} (h : cs.Whole) : cs.Blanks (bare cs) := by
  obtain ⟨l, rfl⟩ := h
  exact blanks_coveredFrom _ l .code (expects_code _)

end Source
end TreeLint
