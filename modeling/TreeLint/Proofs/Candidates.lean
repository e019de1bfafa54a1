/-
# The calls of a body

A call goes from its name to the parenthesis that closes its arguments. In a body
whose brackets are nested and whose quotes are closed, nothing up to the opening
parenthesis is a bracket or a comma, so a call that starts within another one ends
within it, is not cut when the arguments are split, and lies in the value of one
argument: it does not reach into the name of a named argument.

Key definitions: `Extent.Covers`, `Source.Call.Spread`, `Source.Call.Precedes`.
Key theorems: `Source.neutral_callHead`, `Source.exists_spread`,
`Source.pairwise_precedes_calls`.
-/
import TreeLint.Proofs.Brackets
import TreeLint.Proofs.Nesting

namespace TreeLint

/-- The other interval lies in this one. -/
def Extent.Covers (r r' : Extent) : Prop := r.start ≤ r'.start ∧ r'.stop ≤ r.stop

namespace Cells

variable {cs : Cells} {i j k start stop : Nat} {P : Cell → Prop}

theorem Each.le_of_not (h : cs.Each i j P) (hi : i ≤ k) {x : Cell} (hx : cs[k]? = some x)
    (hnot : ¬ P x) : j ≤ k := by
  by_contra hlt
  obtain ⟨y, hy, hP⟩ := h k hi (by omega)
  obtain rfl := Option.some.inj (hx.symm.trans hy)
  exact hnot hP

theorem Each.of_slice {r : Extent} (h : Each (cs.slice r) i j P) :
    cs.Each (r.start + i) (r.start + j) P := by
  intro m hi hj
  obtain ⟨x, hx, hP⟩ := h (m - r.start) (by omega) (by omega)
  rw [getElem?_slice, show r.start + (m - r.start) = m by omega] at hx
  split at hx
  · exact ⟨x, hx, hP⟩
  · cases hx

/-- From every offset on the text is tidy, within quotes or outside them. -/
def TidyBetween (cs : Cells) (start stop : Nat) : Prop :=
  ∀ i, start ≤ i → i ≤ stop → ∃ inside, Tidy inside (cs.slice ⟨i, stop⟩)

theorem Tidy.between {inside : Bool} (h : Tidy inside (cs.slice ⟨start, stop⟩)) :
    cs.TidyBetween start stop := by
  intro i hle hle'
  rw [← slice_append cs hle hle'] at h
  exact h.right

end Cells

namespace Source

open Cells

/-! ### The head of a call -/

theorem neutral_of_class {p : Char → Bool} (hp : ∀ ch ∈ ['(', ')', '[', ']', ','], p ch = false)
    {x : Cell} (h : p x.char = true) : Neutral x := by
  have hne : ∀ ch ∈ ['(', ')', '[', ']', ','], x.char ≠ ch := by
    rintro ch hch heq
    rw [heq, hp ch hch] at h
    cases h
  exact ⟨⟨hne _ (by simp), hne _ (by simp), hne _ (by simp), hne _ (by simp)⟩, hne _ (by simp)⟩

theorem neutral_of_isWord {x : Cell} (h : x.isWord = true) : Neutral x :=
  neutral_of_class (p := CharClass.isWord) (by decide) h

theorem neutral_of_isBlank {x : Cell} (h : x.isBlank = true) : Neutral x :=
  neutral_of_class (p := CharClass.isBlank) (by decide) h

theorem neutral_of_quote {x : Cell} (h : x.char = '"') : Neutral x := by
  unfold Neutral NoBracket
  rw [h]
  decide

section Head

variable {cs : Cells} {start stop : Nat} {c d e : Cursor} (hcs : cs.Whole)
  (hstop : cs.isBoundary stop = true)
include hcs hstop

omit hcs in
theorem quote_of_tidy (h : d.In cs stop) (htidy : Tidy true (cs.slice ⟨d.pos, stop⟩)) :
    ∃ x, cs[d.blanks.pos]? = some x ∧ x.char = '"' := by
  obtain ⟨mid, y, post, hsplit, hy, hmid⟩ := htidy.exists_quote
  obtain ⟨hmid', hcell, -, hlt⟩ :=
    slice_eq_append (Cells.le_length_of_isBoundary hstop) h.pos_le hsplit
  obtain ⟨-, hle, hblanks, hnext⟩ := h.skipWhile hstop Cell.isBlank
  rw [← Cursor.blanks] at hle hblanks hnext
  have hyblank : ¬ y.isBlank = true := by
    rw [Cell.isBlank, hy]
    decide
  have hle' : d.blanks.pos ≤ d.pos + mid.length := hblanks.le_of_not (by omega) hcell hyblank
  have heq : d.blanks.pos = d.pos + mid.length := by
    by_contra hne
    obtain ⟨x, hx⟩ : ∃ x, cs[d.blanks.pos]? = some x :=
      ⟨_, List.getElem?_eq_getElem (by have := Cells.le_length_of_isBoundary hstop; omega)⟩
    have hx' : x ∈ mid := by
      rw [hmid']
      exact mem_slice hx hle (by simp only; omega)
    have := hnext x (by omega) hx
    rw [hmid x hx'] at this
    cases this
  rw [heq]
  exact ⟨y, hcell, hy⟩

/-- **A name before a mark has no bracket in it**: its quotes have only blanks between them. -/
theorem neutral_name (h : c.Stands cs stop) (htidy : cs.TidyBetween start stop)
    (hle : start ≤ c.pos) {r : Extent} (hd : c.name? CharClass.isAsciiLetter = some (r, d))
    {ch : Char} (hch : ch ≠ '"') (he : d.blanks.mark? ch = some e) :
    cs.Each c.pos d.pos Neutral := by
  unfold Cursor.name? at hd
  split at hd
  · rename_i d' heither
    cases hd
    rcases Option.or_eq_some_iff.mp heither with hquoted | ⟨-, hplain⟩
    · obtain ⟨-, hd', hle', ⟨x, hx, hxquote⟩, ⟨y, hy, hyquote⟩, hinner⟩ :=
        h.toIn.quoted? hcs hstop hquoted
      have hpos := hd'.pos_le
      have hmid : ∀ z ∈ cs.slice ⟨c.pos + 1, d.pos - 1⟩, z.char ≠ '"' := by
        intro z hz
        obtain ⟨k, hk, hlt, hzk⟩ := exists_of_mem_slice hz
        obtain ⟨z', hz', hne⟩ := hinner k hk hlt
        obtain rfl := Option.some.inj (hzk.symm.trans hz')
        exact hne
      obtain ⟨inside, hat⟩ := htidy c.pos hle h.pos_le
      rw [slice_cons hx (by omega), Tidy, if_pos hxquote,
        ← slice_append cs (a := c.pos + 1) (b := d.pos - 1) (by omega) (by omega)] at hat
      obtain ⟨hblank, hrest⟩ := hat.skip hmid
      rw [slice_cons hy (by omega), Tidy, if_pos hyquote, Bool.not_not,
        show d.pos - 1 + 1 = d.pos by omega] at hrest
      -- behind a closing quote that was taken for an opening one there would be a quote
      cases inside with
      | true =>
        obtain ⟨z, hz, hzquote⟩ := quote_of_tidy hstop hd'.toIn hrest
        unfold Cursor.mark? at he
        split at he
        · rename_i hhead
          obtain ⟨z', -, hz', hchar⟩ := (hd'.blanks hcs hstop).toIn.of_head?_any hhead
          obtain rfl := Option.some.inj (hz.symm.trans hz')
          exact absurd ((beq_iff_eq.mp hchar).symm.trans hzquote) hch
        · cases he
      | false =>
        intro k hk hlt
        by_cases hfirst : k = c.pos
        · exact ⟨x, hfirst ▸ hx, neutral_of_quote hxquote⟩
        by_cases hlast : k = d.pos - 1
        · exact ⟨y, hlast ▸ hy, neutral_of_quote hyquote⟩
        · obtain ⟨z, hz, -⟩ := hinner k (by omega) (by omega)
          exact ⟨z, hz, neutral_of_isBlank
            (hblank rfl z (mem_slice hz (by simp only; omega) (by simp only; omega)))⟩
    · obtain ⟨-, -, hall, -⟩ := h.plain? hcs hstop CharClass.isWord_of_isAsciiLetter hplain
      exact hall.mono fun _ => neutral_of_isWord
  · cases hd

theorem blanks_mark (h : c.Stands cs stop) {ch : Char} (hch : ch.utf8Size = 1)
    (hd : c.blanks.mark? ch = some d) :
    d.Stands cs stop ∧ c.pos ≤ c.blanks.pos ∧ d.pos = c.blanks.pos + 1 ∧
      cs.Each c.pos c.blanks.pos (Cell.isBlank · = true) ∧
      ∃ x, cs[c.blanks.pos]? = some x ∧ x.char = ch := by
  obtain ⟨-, hle, hblanks, -⟩ := h.toIn.skipWhile hstop Cell.isBlank
  obtain ⟨hd', hpos, hmark⟩ := (h.blanks hcs hstop).mark? hcs hstop hch hd
  exact ⟨hd', hle, hpos, hblanks, hmark⟩

theorem neutral_callHead (htidy : cs.TidyBetween start stop) (h : c.In cs stop)
    (hle : start ≤ c.pos) {v : CallHead} (hd : callHead c = some (v, d)) :
    cs.Each c.pos (d.pos - 1) Neutral := by
  simp only [callHead, Option.bind_eq_bind, Option.bind_eq_some_iff] at hd
  obtain ⟨c₁, h₁, hd⟩ := hd
  obtain ⟨hc, hname⟩ := name?_of_callName hcs hstop h h₁
  obtain ⟨hc₁, -, hsnug⟩ := hc.name? hcs hstop CharClass.isWord_of_isAsciiLetter hname
  have hlt := hsnug.lt
  simp only at hlt
  split at hd
  · rename_i m c₄ hmember
    obtain ⟨c₅, h₅, hd⟩ := hd
    cases hd
    unfold memberName? at hmember
    split at hmember
    · rename_i c₂ h₂
      obtain ⟨hc₂, hle₁, hpos₂, hblanks₁, x, hx, hxchar⟩ := blanks_mark hcs hstop hc₁ (by decide) h₂
      have hc₃ := hc₂.blanks hcs hstop
      obtain ⟨-, hle₂, hblanks₂, -⟩ := hc₂.toIn.skipWhile hstop Cell.isBlank
      rw [← Cursor.blanks] at hle₂ hblanks₂
      obtain ⟨hc₄, rfl, hsnug₄⟩ := hc₃.name? hcs hstop CharClass.isWord_of_isAsciiLetter hmember
      have hlt₄ := hsnug₄.lt
      simp only at hlt₄
      obtain ⟨-, hle₄, hpos₅, hblanks₄, -⟩ := blanks_mark hcs hstop hc₄ (by decide) h₅
      have hdot : cs.Each c₁.blanks.pos c₂.pos Neutral := by
        rw [hpos₂]
        refine each_single hx ?_
        unfold Neutral NoBracket
        rw [hxchar]
        decide
      have hfirst := neutral_name hcs hstop hc htidy hle hname (by decide) h₂
      have hsecond := neutral_name hcs hstop hc₃ htidy (by omega) hmember (by decide) h₅
      rw [hpos₅, Nat.add_sub_cancel]
      exact ((((hfirst.append (hblanks₁.mono fun _ => neutral_of_isBlank)).append hdot).append
        (hblanks₂.mono fun _ => neutral_of_isBlank)).append hsecond).append
        (hblanks₄.mono fun _ => neutral_of_isBlank)
    · cases hmember
  · obtain ⟨c₂, h₂, hd⟩ := hd
    cases hd
    obtain ⟨-, -, hpos₂, hblanks₁, -⟩ := blanks_mark hcs hstop hc₁ (by decide) h₂
    rw [hpos₂, Nat.add_sub_cancel]
    exact (neutral_name hcs hstop hc htidy hle hname (by decide) h₂).append
      (hblanks₁.mono fun _ => neutral_of_isBlank)

/-- **How a call starts:** with a quote, or at the edge of a word with a word and then a dot or a
parenthesis. -/
theorem cases_callHead (h : c.In cs stop) {v : CallHead} (hd : callHead c = some (v, d)) :
    (∃ x, cs[c.pos]? = some x ∧ x.char = '"') ∨
      c.atWordEdge = true ∧ ∃ m k x, c.pos < m ∧ cs.Each c.pos m (Cell.isWord · = true) ∧
        m ≤ k ∧ cs.Each m k (Cell.isBlank · = true) ∧ cs[k]? = some x ∧
        (x.char = '.' ∨ x.char = '(') := by
  simp only [callHead, Option.bind_eq_bind, Option.bind_eq_some_iff] at hd
  obtain ⟨c₁, h₁, hd⟩ := hd
  rcases Option.or_eq_some_iff.mp h₁ with hquoted | ⟨-, hplain⟩
  · obtain ⟨-, -, -, hquote, -⟩ := h.quoted? hcs hstop hquoted
    exact Or.inl hquote
  · split at hplain
    · rename_i hedge
      have hc : c.Stands cs stop := ⟨h, h.isBoundary_of_atWordEdge hcs hstop hedge⟩
      obtain ⟨hc₁, hlt, hword, -⟩ := hc.plain? hcs hstop CharClass.isWord_of_isAsciiLetter hplain
      refine Or.inr ⟨hedge, c₁.pos, c₁.blanks.pos, ?_⟩
      split at hd
      · rename_i m c₄ hmember
        unfold memberName? at hmember
        split at hmember
        · rename_i c₂ h₂
          obtain ⟨-, hle, -, hblanks, x, hx, hxchar⟩ := blanks_mark hcs hstop hc₁ (by decide) h₂
          exact ⟨x, hlt, hword, hle, hblanks, hx, Or.inl hxchar⟩
        · cases hmember
      · obtain ⟨c₂, h₂, -⟩ := hd
        obtain ⟨-, hle, -, hblanks, x, hx, hxchar⟩ := blanks_mark hcs hstop hc₁ (by decide) h₂
        exact ⟨x, hlt, hword, hle, hblanks, hx, Or.inr hxchar⟩
    · cases hplain

end Head

/-! ### Named arguments -/

/-- **How a named argument starts:** a word, a colon and an equals sign, with blanks between the
word and the colon and before the value. -/
theorem exists_of_namedArgument? {cs : Cells} (hcs : cs.Whole) {q : Extent} (hq : cs.Cuts q)
    {name : Extent} {value : Nat} (h : namedArgument? (cs.slice q) = some (name, value)) :
    ∃ m k, q.start < m ∧ cs.Each q.start m (Cell.isWord · = true) ∧ m ≤ k ∧
      cs.Each m k (Cell.isBlank · = true) ∧ (∃ x, cs[k]? = some x ∧ x.char = ':') ∧
      (∃ x, cs[k + 1]? = some x ∧ x.char = '=') ∧ k + 2 ≤ q.start + value ∧
      cs.Each (k + 2) (q.start + value) (Cell.isBlank · = true) := by
  have htext := hcs.slice hq.start hq.stop
  have hstop := Cells.isBoundary_length (cs.slice q)
  have hc : Cursor.Stands (cs.slice q) (cs.slice q).length ⟨none, 0, cs.slice q⟩ :=
    ⟨⟨by simp [Cells.slice], Nat.zero_le _, Or.inl ⟨rfl, htext.isBoundary_zero⟩⟩,
      htext.isBoundary_zero⟩
  have hcell : ∀ {i : Nat} {ch : Char}, (∃ x, (cs.slice q)[i]? = some x ∧ x.char = ch) →
      ∃ x, cs[q.start + i]? = some x ∧ x.char = ch := by
    rintro i ch ⟨x, hx, hchar⟩
    rw [getElem?_slice] at hx
    split at hx
    · exact ⟨x, hx, hchar⟩
    · cases hx
  simp only [namedArgument?, Option.bind_eq_bind, Option.bind_eq_some_iff] at h
  obtain ⟨c₁, h₁, c₂, h₂, c₃, h₃, h⟩ := h
  cases h
  obtain ⟨hc₁, hlt, hword, -⟩ := hc.plain? htext hstop CharClass.isWord_of_isAsciiLetter h₁
  obtain ⟨hc₂, hle, hpos₂, hblanks, hcolon⟩ := blanks_mark htext hstop hc₁ (by decide) h₂
  obtain ⟨hc₃, hpos₃, hequals⟩ := hc₂.mark? htext hstop (by decide) h₃
  obtain ⟨-, hle₃, hblanks₃, -⟩ := hc₃.toIn.skipWhile hstop Cell.isBlank
  rw [← Cursor.blanks] at hle₃ hblanks₃
  simp only at hlt
  refine ⟨q.start + c₁.pos, q.start + c₁.blanks.pos, by omega, hword.of_slice, by omega,
    hblanks.of_slice, hcell hcolon, ?_, by omega, ?_⟩
  · rw [Nat.add_assoc, ← hpos₂]
    exact hcell hequals
  · rw [Nat.add_assoc, show c₁.blanks.pos + 2 = c₃.pos by omega]
    exact hblanks₃.of_slice

theorem not_isWord_of_isBlank {x : Cell} (h : x.isBlank = true) : ¬ x.isWord = true := by
  intro hword
  have := CharClass.isBlank_of_isWord hword
  rw [← Cell.isBlank, h] at this
  cases this

theorem word_stop_le {cs : Cells} {i m k m' : Nat} {x : Cell} (hm : i ≤ m) (hmk : m ≤ k)
    (hblanks : cs.Each m k (Cell.isBlank · = true)) (hx : cs[k]? = some x)
    (hxword : ¬ x.isWord = true) (hword : cs.Each i m' (Cell.isWord · = true)) : m' ≤ m := by
  by_cases hlt : m < k
  · obtain ⟨y, hy, hblank⟩ := hblanks m le_rfl hlt
    exact hword.le_of_not hm hy (not_isWord_of_isBlank hblank)
  · obtain rfl : m = k := by omega
    exact hword.le_of_not hm hx hxword

theorem word_blanks_unique {cs : Cells} {i m k m' k' : Nat} {x x' : Cell} (hm : i ≤ m) (hm' : i ≤ m')
    (hword : cs.Each i m (Cell.isWord · = true)) (hword' : cs.Each i m' (Cell.isWord · = true))
    (hmk : m ≤ k) (hmk' : m' ≤ k') (hblanks : cs.Each m k (Cell.isBlank · = true))
    (hblanks' : cs.Each m' k' (Cell.isBlank · = true)) (hx : cs[k]? = some x)
    (hx' : cs[k']? = some x') (hplain : ¬ x.isWord = true ∧ ¬ x.isBlank = true)
    (hplain' : ¬ x'.isWord = true ∧ ¬ x'.isBlank = true) : x = x' := by
  have hle := word_stop_le hm hmk hblanks hx hplain.1 hword'
  have hle' := word_stop_le hm' hmk' hblanks' hx' hplain'.1 hword
  obtain rfl : m = m' := by omega
  have hk := hblanks.le_of_not hmk' hx' hplain'.2
  have hk' := hblanks'.le_of_not hmk hx hplain.2
  obtain rfl : k = k' := by omega
  exact Option.some.inj (hx.symm.trans hx')

/-- Before the value of a named argument everything but blanks and the two marks is in the name. -/
theorem lt_of_before_value {cs : Cells} {m k stop p : Nat} {x y z : Cell}
    (hblanks : cs.Each m k (Cell.isBlank · = true)) (hx : cs[k]? = some x) (hxchar : x.char = ':')
    (hy : cs[k + 1]? = some y) (hychar : y.char = '=')
    (hblanks' : cs.Each (k + 2) stop (Cell.isBlank · = true)) (hp : p < stop)
    (hz : cs[p]? = some z) (hblank : ¬ z.isBlank = true) (hcolon : z.char ≠ ':')
    (hequals : z.char ≠ '=') : p < m := by
  by_contra hnot
  by_cases h₁ : p < k
  · exact absurd h₁ (Nat.not_lt.mpr (hblanks.le_of_not (by omega) hz hblank))
  by_cases h₂ : p = k
  · rw [h₂, hx] at hz
    exact hcolon (Option.some.inj hz ▸ hxchar)
  by_cases h₃ : p = k + 1
  · rw [h₃, hy] at hz
    exact hequals (Option.some.inj hz ▸ hychar)
  · have := hblanks'.le_of_not (by omega) hz hblank
    omega

/-- **A call does not start before the value of a named argument.** -/
theorem value_le_of_callHead {cs : Cells} (hcs : cs.Whole) {stop : Nat}
    (hstop : cs.isBoundary stop = true) {q : Extent} (hq : cs.Cuts q) {name : Extent} {value : Nat}
    (hnamed : namedArgument? (cs.slice q) = some (name, value)) {c d : Cursor} (h : c.In cs stop)
    (hbefore : c.before ≠ none) (hle : q.start ≤ c.pos) {v : CallHead}
    (hd : callHead c = some (v, d)) : q.start + value ≤ c.pos := by
  obtain ⟨m, k, hm, hword, hmk, hblanks, ⟨x, hx, hxchar⟩, ⟨y, hy, hychar⟩, hk, hblanks'⟩ :=
    exists_of_namedArgument? hcs hq hnamed
  by_contra hlt
  have hinside := fun {z : Cell} => lt_of_before_value (z := z) (p := c.pos) hblanks hx hxchar hy
    hychar hblanks' (Nat.lt_of_not_le hlt)
  rcases cases_callHead hcs hstop h hd with ⟨z, hz, hquote⟩ | ⟨hedge, m', k', z, hm', hword', hmk',
    hblanks₁, hz, hzchar⟩
  · have hin := hinside hz (by rw [Cell.isBlank, hquote]; decide) (by rw [hquote]; decide)
      (by rw [hquote]; decide)
    obtain ⟨z', hz', hw⟩ := hword c.pos hle hin
    obtain rfl := Option.some.inj (hz.symm.trans hz')
    rw [Cell.isWord, hquote] at hw
    revert hw
    decide
  · obtain ⟨u, hu, huword⟩ := hword' c.pos le_rfl hm'
    have hne : ∀ ch, CharClass.isWord ch = false → u.char ≠ ch := by
      rintro ch hch rfl
      rw [Cell.isWord, hch] at huword
      cases huword
    have hin := hinside hu (fun hblank => not_isWord_of_isBlank hblank huword)
      (hne _ (by decide)) (hne _ (by decide))
    by_cases hfirst : c.pos = q.start
    · -- the two words are one, and so are the blanks behind them
      have hplain : ¬ z.isWord = true ∧ ¬ z.isBlank = true := by
        unfold Cell.isWord Cell.isBlank
        rcases hzchar with hz' | hz' <;> rw [hz'] <;> decide
      have hplain' : ¬ x.isWord = true ∧ ¬ x.isBlank = true := by
        unfold Cell.isWord Cell.isBlank
        rw [hxchar]
        decide
      rw [hfirst] at hm' hword'
      obtain rfl := word_blanks_unique hm'.le hm.le hword' hword hmk' hmk hblanks₁ hblanks hz hx
        hplain hplain'
      rw [hxchar] at hzchar
      revert hzchar
      decide
    · -- within the word there is no edge
      obtain ⟨u', hu', hword₁⟩ := hword (c.pos - 1) (by omega) (by omega)
      rcases h.before_eq with ⟨hnone, -⟩ | ⟨-, hsome⟩
      · exact hbefore hnone
      · obtain ⟨hd', hplaced⟩ := placed_callHead hcs hstop h hd
        have hlt' : c.pos < stop := hplaced.whole.lt.trans_le hd'.pos_le
        rw [Cursor.atWordEdge, hsome, hu', h.head?_eq hlt', hu] at hedge
        simp [hword₁, huword] at hedge

/-! ### Calls within calls -/

variable {S : Cells} {t : Text} {body : Extent}

/-- The brackets of a stretch are nested and its quotes are closed. -/
structure Text.Regular (t : Text) (body : Extent) : Prop where
  tidy : t.bare.TidyBetween body.start body.stop
  nests : nests [] (t.bare.slice body) = true

/-- A call goes from a head without brackets over its opening parenthesis and what is balanced to
the closing one. -/
structure Call.Spread (t : Text) (body : Extent) (call : Call) (opening close : Nat) : Prop where
  start_le : body.start ≤ call.extent.start
  start_lt : call.extent.start < opening
  lt : opening < close
  close_lt : close < body.stop
  stop_eq : call.extent.stop = close + 1
  first : ∃ x, t.bare[call.extent.start]? = some x ∧ x.isBlank = false
  head : t.bare.Each call.extent.start opening Neutral
  opens : ∃ x, t.bare[opening]? = some x ∧ x.char = '('
  closes : ∃ x, t.bare[close]? = some x ∧ x.char = ')'
  balanced : Balanced (t.bare.slice ⟨opening + 1, close⟩)
  matched : parenEnd 0 opening (t.bare.slice ⟨opening, body.stop⟩) = some close
  arguments : call.arguments = t.arguments ⟨opening + 1, close⟩

/-- **Every call of a regular body is spread out from its head to its parenthesis.** -/
theorem exists_spread (ht : t.Copies S) (hbody : S.Cuts body) (hregular : t.Regular body)
    {f : Found CallHead} (hf : f ∈ callHead.all (Cursor.ofSlice t.bare body)) {call : Call}
    (hcall : t.callOf? (Cursor.ofSlice t.bare body) f = some call) :
    f.extent.start = call.extent.start ∧
      ∃ close, call.Spread t body (f.extent.stop - 1) close := by
  have hbare := ht.bare.cuts hbody
  have hstart := Cursor.in_ofSlice hbare.le hbare.start
  obtain ⟨c, d, hc, hle, -, hmatch, hextent⟩ := Pattern.foundFrom_of_mem_all hbare.stop_le hstart hf
  obtain ⟨hd, hplaced⟩ := placed_callHead ht.bare.whole hbare.stop hc hmatch
  have hneutral := neutral_callHead ht.bare.whole hbare.stop hregular.tidy hc hle hmatch
  have hfirst : ∃ x, t.bare[c.pos]? = some x ∧ x.isBlank = false := by
    rcases cases_callHead ht.bare.whole hbare.stop hc hmatch with
      ⟨x, hx, hquote⟩ | ⟨-, m, k, -, hm, hword, -⟩
    · exact ⟨x, hx, by rw [Cell.isBlank, hquote]; decide⟩
    · obtain ⟨x, hx, hxword⟩ := hword c.pos le_rfl hm
      exact ⟨x, hx, CharClass.isBlank_of_isWord hxword⟩
  obtain ⟨close, hclose, hextent', harguments, -⟩ := exists_of_callOf? hcall
  have hlt := hplaced.first.lt
  have hlast := hplaced.first_stop
  have hfirst_start := hplaced.first_start
  obtain ⟨x, hx, hxchar⟩ := hplaced.opening
  have hpos := hd.pos_le
  simp only [Cursor.ofSlice] at hle
  simp only at hlast hfirst_start hx
  rw [hextent] at hclose hextent' harguments ⊢
  simp only at hclose hextent' harguments ⊢
  obtain ⟨hmove, hmove_pos⟩ := hstart.moveTo (d.pos - 1) (by simp only [Cursor.ofSlice]; omega)
    (by omega)
  rw [closingParen?, hmove.rest_eq, hmove_pos] at hclose
  -- counting stops at the parenthesis that nesting asks for
  obtain ⟨close', hlt', hclose_lt, hbalanced, hmatched⟩ := exists_match le_rfl hbare.stop_le
    hregular.nests (k := d.pos - 1) (by omega) (by omega) hx hxchar
  obtain rfl := Option.some.inj (hclose.symm.trans hmatched)
  have hat := hasAt_parenEnd hmatched
  obtain ⟨-, -, hcloses⟩ := hat.of_slice
  rw [hextent']
  exact ⟨rfl, close, {
    start_le := by rw [hextent']; exact hle
    start_lt := by rw [hextent']; simp only; omega
    lt := hlt'
    close_lt := hclose_lt
    stop_eq := by rw [hextent']
    first := by rw [hextent']; exact hfirst
    head := by rw [hextent']; exact hneutral
    opens := ⟨x, hx, hxchar⟩
    closes := hcloses
    balanced := hbalanced
    matched := hmatched
    arguments := harguments }⟩

theorem Call.Spread.within (hstop : body.stop ≤ t.bare.length) {a b : Call}
    {opening close opening' close' : Nat} (ha : a.Spread t body opening close)
    (hb : b.Spread t body opening' close') (hlt : opening < b.extent.start)
    (hle : b.extent.start ≤ close) : opening' < close ∧ close' < close := by
  obtain ⟨x, hx, hxchar⟩ := ha.closes
  obtain ⟨y, hy, hychar⟩ := hb.opens
  have hnot : ¬ Neutral x := by
    rintro ⟨⟨-, hne, -⟩, -⟩
    exact hne hxchar
  have hopening : opening' ≤ close := hb.head.le_of_not hle hx hnot
  have hne : opening' ≠ close := by
    rintro rfl
    obtain rfl := Option.some.inj (hx.symm.trans hy)
    rw [hxchar] at hychar
    revert hychar
    decide
  have hbefore := hb.start_lt
  have hclose_lt := ha.close_lt
  have hnests : nests [] (t.bare.slice ⟨opening + 1, close⟩) = true := ha.balanced.nests
  obtain ⟨close'', -, hlt', -, hmatched⟩ := exists_match hclose_lt.le hstop hnests (by omega)
    (by omega) hy hychar
  obtain rfl := Option.some.inj (hb.matched.symm.trans hmatched)
  exact ⟨by omega, hlt'⟩

/-- **A call within the parentheses of another one lies in one of its arguments.** -/
theorem Call.Spread.exists_argument (ht : t.Copies S) (hbody : S.Cuts body) {a b : Call}
    {opening close opening' close' : Nat} (ha : a.Spread t body opening close)
    (hb : b.Spread t body opening' close') (hlt : opening < b.extent.start)
    (hle : b.extent.start ≤ close) : ∃ q ∈ a.arguments, q.Covers b.extent := by
  have hbare := ht.bare.cuts hbody
  obtain ⟨hopening, hclose⟩ := ha.within hbare.stop_le hb hlt hle
  obtain ⟨x, hx, hxblank⟩ := hb.first
  obtain ⟨y, hy, hychar⟩ := hb.opens
  obtain ⟨z, hz, hzchar⟩ := hb.closes
  have hzblank : z.isBlank = false := by
    rw [Cell.isBlank, hzchar]
    decide
  have hcloses := ha.close_lt
  have hbefore := hb.start_lt
  have hlt' := hb.lt
  obtain ⟨p, hp, hstart, hstop⟩ := exists_piece (r := ⟨opening + 1, close⟩)
    (by have := hbare.stop_le; simp only; omega) hlt hbefore.le hlt' hclose hb.head hy hychar
    hb.balanced hz hzchar
  -- the parentheses are between boundaries, so the pieces can be cut out
  obtain ⟨u, hu, huchar⟩ := ha.opens
  obtain ⟨v, hv, hvchar⟩ := ha.closes
  have hmark := ht.bare.snug_single hu (by rw [huchar]; decide) (by rw [huchar]; decide)
  have hmark' := ht.bare.snug_single hv (by rw [hvchar]; decide) (by rw [hvchar]; decide)
  have hinner : S.Cuts ⟨opening + 1, close⟩ := ⟨by simp only; omega, hmark.stop, hmark'.start⟩
  have hpieces := separated_pieces (ht.bare.cuts hinner)
  obtain ⟨hcuts, -, -⟩ := ht.cuts_of_separated hinner (by decide) (by decide) hpieces hp
  obtain ⟨-, -, -, hkeeps⟩ := ht.cuts_trim (ht.bare.cuts hcuts) hcuts.stop
  obtain ⟨hfirst, -⟩ := hkeeps b.extent.start x hstart (by omega) hx hxblank
  obtain ⟨-, hlast⟩ := hkeeps close' z (by omega) hstop hz hzblank
  refine ⟨t.trim p, ?_, hfirst, by rw [hb.stop_eq]; exact hlast⟩
  rw [ha.arguments, Text.arguments, if_neg]
  · exact List.mem_map_of_mem hp
  · intro hblank
    have hmem : x ∈ t.bare.slice ⟨opening + 1, close⟩ := mem_slice hx hlt (by simp only; omega)
    have := List.all_eq_true.mp hblank x hmem
    rw [hxblank] at this
    cases this

/-- The other call starts later: behind this one, or in the value of one of its arguments,
whatever the parameters are. -/
def Call.Precedes (t : Text) (a b : Call) : Prop :=
  a.extent.start < b.extent.start ∧ (a.extent.stop ≤ b.extent.start ∨
    ∀ parameters, ∃ x ∈ boundArguments t parameters a, x.2.2.Covers b.extent)

/-- **The calls of a regular body come one behind the other or one within an argument of the
other.** -/
theorem pairwise_precedes_calls (ht : t.Copies S) (hbody : S.Cuts body)
    (hregular : t.Regular body) : (t.calls body).Pairwise (Call.Precedes t) := by
  have hbare := ht.bare.cuts hbody
  have hwhole := ht.bare.whole
  have hstart := Cursor.in_ofSlice hbare.le hbare.start
  have hheads : (callHead.all (Cursor.ofSlice t.bare body)).Pairwise
      (·.extent.stop ≤ ·.extent.start) :=
    Pattern.pairwise_all hbare.stop_le
      (fun c v d hc hd => (placed_callHead hwhole hbare.stop hc hd).2.whole.lt) hstart
  rw [Text.calls, List.pairwise_filterMap]
  refine hheads.imp_of_mem ?_
  intro f g hf hg hfg a ha b hb
  obtain ⟨hfstart, close, hspread⟩ := exists_spread ht hbody hregular hf ha
  obtain ⟨hgstart, close', hspread'⟩ := exists_spread ht hbody hregular hg hb
  have hlt := hspread.start_lt
  have hlt' : f.extent.stop - 1 < b.extent.start := by omega
  refine ⟨by omega, ?_⟩
  by_cases hle : b.extent.start ≤ close
  · right
    intro parameters
    obtain ⟨q, hq, hcovers⟩ := hspread.exists_argument ht hbody hspread' hlt' hle
    obtain ⟨i, hi⟩ := List.mem_iff_getElem?.mp hq
    have hmem : ((bindArgument t parameters i q).1, q, (bindArgument t parameters i q).2) ∈
        boundArguments t parameters a :=
      List.mem_map.mpr ⟨(q, i), List.mk_mem_zipIdx_iff_getElem?.mpr hi, rfl⟩
    refine ⟨_, hmem, ?_⟩
    -- only the name of a named argument is left out of its value
    obtain ⟨hstart', hstop'⟩ := hcovers
    have hcuts := ((placed_of_mem_calls ht hbody (List.mem_filterMap.mpr ⟨f, hf, ha⟩)).argument q hq).1
    unfold bindArgument
    split
    · rename_i name value hnamed
      have hle' := hspread.start_le
      obtain ⟨c, d, hc, hbefore, hmatch, hextent⟩ :=
        Pattern.before_of_mem_all hbare.stop_le hstart hg (by simp only [Cursor.ofSlice]; omega)
      have hpos : b.extent.start = c.pos := by rw [← hgstart, hextent]
      refine ⟨?_, hstop'⟩
      rw [hpos] at hstart' ⊢
      exact value_le_of_callHead hwhole hbare.stop (ht.bare.cuts hcuts) hnamed hc hbefore hstart' hmatch
    · exact ⟨hstart', hstop'⟩
  · left
    rw [hspread.stop_eq]
    omega

end Source
end TreeLint
