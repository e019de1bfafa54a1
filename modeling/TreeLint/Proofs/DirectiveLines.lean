/-
# The lines that are directives

A line is a directive if it is made of parts: blanks, the words `#pragma` and
`warning`, a keyword, and something that does not go on the keyword
(`Pragma.DirectiveLine`). The words may be in any case, and simple folding counts as
case. Reading a line finds its parts (`ofLine?_eq_some_iff`), and reading a source
finds every line of it that is made of such parts, and nothing else
(`mem_parse_iff`).

A directive is listed with the number of its line, counted along with the lines, and
with the offset of its line. The line index of the source, which counts line feeds,
gives the same number for that offset (`position_of_mem_parse`).

Key definitions: `CharClass.Folds`, `Cursor.between`, `Pragma.DirectiveLine`,
`Pragma.WholeLines`, `Pragma.LineAt`.
Key theorems: `Cursor.word?_ofChars_iff`, `Pragma.ofLine?_chars`,
`Pragma.ofLine?_eq_some_iff`, `Pragma.mem_parse_iff`, `Pragma.position_of_mem_parse`.
-/
import TreeLint.Proofs.Directives
import TreeLint.Proofs.Words

namespace TreeLint

open Cells (ofChars lastOr)

namespace CharClass

/-- A space or a tab. -/
def isGap (c : Char) : Bool := c == ' ' || c == '\t'

/-- The characters are those of the word, each in some case. -/
def Folds (word cs : List Char) : Prop := List.Forall₂ (fun k c => folds k c = true) word cs

instance (word cs : List Char) : Decidable (Folds word cs) :=
  inferInstanceAs (Decidable (List.Forall₂ _ _ _))

theorem isGap_of_isWord {c : Char} (h : isWord c = true) : isGap c = false := by
  rw [Bool.eq_false_iff]
  intro hgap
  have hblank : isWord c = false := by
    rcases Bool.or_eq_true_iff.mp hgap with h | h
    · rw [beq_iff_eq.mp h]
      rfl
    · rw [beq_iff_eq.mp h]
      rfl
  rw [hblank] at h
  cases h

section Folds

variable {word cs : List Char}

theorem folds_of_map_lower (h : cs.map lower = word) : Folds word cs := by
  subst h
  induction cs with
  | nil => exact .nil
  | cons c cs ih => exact .cons (by simp [folds]) ih

theorem Folds.isWord_of_mem (hword : Source.Lettered word) (h : Folds word cs) :
    ∀ c ∈ cs, isWord c = true := by
  have hletters := hword.2
  clear hword
  induction h with
  | nil => nofun
  | cons hfolds _ ih =>
    rw [List.forall_mem_cons] at hletters ⊢
    exact ⟨isWord_of_folds hletters.1 hfolds, ih hletters.2⟩

theorem Folds.ne_nil (hword : Source.Lettered word) (h : Folds word cs) : cs ≠ [] := by
  rintro rfl
  cases h
  exact hword.1 rfl

theorem Folds.head?_append (hword : Source.Lettered word) (h : Folds word cs) (back : List Char) :
    (cs ++ back).head?.any isGap = false := by
  cases cs with
  | nil => exact absurd rfl (h.ne_nil hword)
  | cons c cs => simpa using isGap_of_isWord (h.isWord_of_mem hword c List.mem_cons_self)

end Folds

end CharClass

open CharClass (Folds folds)

namespace Cells

theorem ofChars_eq_nil_iff {l : List Char} : ofChars l = [] ↔ l = [] := by
  cases l <;> simp [ofChars, Cell.ofChar]

theorem char_mem_of_mem_ofChars {l : List Char} {x : Cell} (hx : x ∈ ofChars l) : x.char ∈ l := by
  obtain ⟨c, hc, hx⟩ := List.mem_flatMap.mp hx
  rcases List.mem_cons.mp hx with rfl | hx
  · exact hc
  · rw [(List.mem_replicate.mp hx).2]
    exact hc

theorem char_ne_of_not_mem {l : List Char} {c : Char} (h : c ∉ l) : ∀ x ∈ ofChars l, x.char ≠ c := by
  rintro x hx rfl
  exact h (char_mem_of_mem_ofChars hx)

theorem head?_ofChars (l : List Char) : (ofChars l).head? = l.head?.map fun c => ⟨c, true⟩ := by
  cases l <;> rfl

theorem head?_ofChars_any (q : Char → Bool) (l : List Char) :
    (ofChars l).head?.any (fun x => q x.char) = l.head?.any q := by
  rw [head?_ofChars]
  cases l <;> rfl

theorem takeWhile_ofChars (q : Char → Bool) (l : List Char) :
    (ofChars l).takeWhile (fun x => q x.char) = ofChars (l.takeWhile q) := by
  induction l with
  | nil => rfl
  | cons c l ih =>
    rw [ofChars_cons]
    by_cases hc : q c = true
    · have hcells : ∀ x ∈ Cell.ofChar c, q x.char = true := by
        intro x hx
        have hx' : x ∈ ofChars [c] := by simpa [ofChars] using hx
        rwa [List.mem_singleton.mp (char_mem_of_mem_ofChars hx')]
      rw [List.takeWhile_append_of_pos hcells, ih, List.takeWhile_cons_of_pos hc, ofChars_cons]
    · rw [List.takeWhile_cons_of_neg hc, Cell.ofChar, List.cons_append,
        List.takeWhile_cons_of_neg (p := fun x : Cell => q x.char) hc]
      rfl

theorem text_ofChars (l : List Char) : (ofChars l).text = String.ofList l := by
  rw [text, chars_ofChars]

end Cells

/-- Any text starts with a run of a class and goes on with something that is not of it. -/
theorem exists_run {α : Type} (q : α → Bool) (l : List α) :
    ∃ run back, l = run ++ back ∧ run.all q = true ∧ back.head?.any q = false := by
  refine ⟨l.takeWhile q, l.dropWhile q, List.takeWhile_append_dropWhile.symm, ?_, ?_⟩
  · exact List.all_eq_true.mpr fun x hx => List.mem_takeWhile_imp hx
  · have hnot := List.head?_dropWhile_not q l
    cases h : (l.dropWhile q).head? with
    | none => rfl
    | some x =>
      rw [h] at hnot
      simpa using hnot

namespace Cursor

/-! ### Steps over characters -/

/-- A word that stands at the front of a text stands there character by character. -/
theorem word?_ofChars_iff {word l : List Char} {before : Option Cell} {pos : Nat} {d : Cursor} :
    (Cursor.mk before pos (ofChars l)).word? word = some d ↔
      ∃ cs back, l = cs ++ back ∧ Folds word cs ∧
        d = ⟨lastOr before (ofChars cs), pos + (ofChars cs).length, ofChars back⟩ := by
  induction word generalizing before pos l with
  | nil =>
    constructor
    · intro h
      cases h
      exact ⟨[], l, rfl, .nil, rfl⟩
    · rintro ⟨cs, back, rfl, hfolds, rfl⟩
      cases hfolds
      rfl
  | cons k ks ih =>
    cases l with
    | nil =>
      constructor
      · intro h
        cases h
      · rintro ⟨cs, back, heq, hfolds, -⟩
        obtain ⟨rfl, -⟩ := List.append_eq_nil_iff.mp heq.symm
        cases hfolds
    | cons c l =>
      have hstep : (Cursor.mk before pos (ofChars (c :: l))).word? (k :: ks) =
          if folds k c then (Cursor.mk (lastOr before (Cell.ofChar c)) (pos + c.utf8Size)
            (ofChars l)).word? ks else none := by
        have hadvance := advance_append before pos (Cell.ofChar c) (ofChars l)
        rw [Cells.length_ofChar] at hadvance
        rw [Cells.ofChars_cons, ← hadvance]
        rfl
      rw [hstep]
      constructor
      · intro h
        obtain ⟨hfolds, h⟩ := Option.ite_none_right_eq_some.mp h
        obtain ⟨cs, back, rfl, hrest, rfl⟩ := ih.mp h
        refine ⟨c :: cs, back, rfl, .cons hfolds hrest, ?_⟩
        rw [Cells.ofChars_cons, Cells.lastOr_append, List.length_append, Cells.length_ofChar,
          Nat.add_assoc]
      · rintro ⟨cs, back, heq, hfolds, rfl⟩
        cases hfolds with
        | @cons _ c' _ cs hc hrest =>
          obtain ⟨rfl, rfl⟩ := List.cons.inj heq
          rw [if_pos hc, ih]
          refine ⟨cs, back, rfl, hrest, ?_⟩
          rw [Cells.ofChars_cons, Cells.lastOr_append, List.length_append, Cells.length_ofChar,
            Nat.add_assoc]

/-- The place between two parts of a text. -/
def between (front back : List Char) : Cursor :=
  ⟨lastOr none (ofChars front), (ofChars front).length, ofChars back⟩

variable {front l : List Char} {d : Cursor}

theorem between_append (front mid back : List Char) :
    between (front ++ mid) back =
      ⟨lastOr (lastOr none (ofChars front)) (ofChars mid),
        (ofChars front).length + (ofChars mid).length, ofChars back⟩ := by
  rw [between, Cells.ofChars_append, Cells.lastOr_append, List.length_append]

theorem word?_between_iff {word : List Char} :
    (between front l).word? word = some d ↔
      ∃ cs back, l = cs ++ back ∧ Folds word cs ∧ d = between (front ++ cs) back := by
  simp only [between_append]
  exact word?_ofChars_iff

theorem mark?_between_iff {x : Char} (hx : x.utf8Size = 1) :
    (between front l).mark? x = some d ↔
      ∃ back, l = x :: back ∧ d = between (front ++ [x]) back := by
  have hofChar : Cell.ofChar x = [⟨x, true⟩] := by
    rw [Cell.ofChar, hx]
    rfl
  have hcons : ∀ back, (between front (x :: back)).advance 1 = between (front ++ [x]) back := by
    intro back
    have hmark : ofChars [x] = [⟨x, true⟩] := by simp [ofChars, hofChar]
    rw [between_append, between, Cells.ofChars_cons, hofChar, hmark]
    rfl
  have hhead := Cells.head?_ofChars_any (· == x) l
  rw [mark?]
  cases l with
  | nil => simp [between, ofChars]
  | cons y back =>
    rw [show (between front (y :: back)).rest = ofChars (y :: back) from rfl, hhead]
    by_cases hy : y = x
    · subst hy
      simp [hcons, eq_comm]
    · simp [hy]

theorem skipWhile_between {q : Char → Bool} {run back : List Char} (hrun : run.all q = true)
    (hback : back.head?.any q = false) :
    (between front (run ++ back)).skipWhile (fun x => q x.char) = between (front ++ run) back := by
  rw [between_append, between, Cells.ofChars_append]
  refine skipWhile_append (fun x hx => ?_) ?_
  · exact List.all_eq_true.mp hrun _ (Cells.char_mem_of_mem_ofChars hx)
  · rw [Cells.head?_ofChars_any]
    exact hback

theorem some?_between_iff {q : Char → Bool} :
    (between front l).some? (fun x => q x.char) = some d ↔
      ∃ run back, l = run ++ back ∧ run ≠ [] ∧ run.all q = true ∧ back.head?.any q = false ∧
        d = between (front ++ run) back := by
  have hhead : (between front l).rest.head?.any (fun x => q x.char) = l.head?.any q :=
    Cells.head?_ofChars_any q l
  rw [some?, hhead, Option.ite_none_right_eq_some]
  constructor
  · rintro ⟨hfirst, h⟩
    obtain ⟨run, back, rfl, hrun, hback⟩ := exists_run q l
    rw [skipWhile_between hrun hback] at h
    refine ⟨run, back, rfl, ?_, hrun, hback, (Option.some.inj h).symm⟩
    rintro rfl
    rw [List.nil_append, hback] at hfirst
    cases hfirst
  · rintro ⟨run, back, rfl, hne, hrun, hback, rfl⟩
    rw [skipWhile_between hrun hback]
    refine ⟨?_, rfl⟩
    cases run with
    | nil => exact absurd rfl hne
    | cons c run => simpa using List.all_eq_true.mp hrun c List.mem_cons_self

/-- Behind a word there is an edge exactly if no word character comes next. -/
theorem atWordEdge_between {cs back : List Char} (hne : cs ≠ [])
    (hcs : ∀ c ∈ cs, CharClass.isWord c = true) :
    (between (front ++ cs) back).atWordEdge = !back.head?.any CharClass.isWord := by
  have hbefore : (between (front ++ cs) back).before.any Cell.isWord = true := by
    rw [between_append]
    refine Cells.any_lastOr (fun hnil => ?_) fun x hx => hcs _ (Cells.char_mem_of_mem_ofChars hx)
    cases cs with
    | nil => exact absurd rfl hne
    | cons c cs => cases hnil
  have hhead : (between (front ++ cs) back).rest.head?.any Cell.isWord =
      back.head?.any CharClass.isWord := Cells.head?_ofChars_any CharClass.isWord back
  rw [atWordEdge, hbefore, hhead]
  cases back.head?.any CharClass.isWord <;> rfl

end Cursor

namespace Pragma

open Cursor (between between_append)

/-! ### One line -/

/-- A line with a directive, in its parts: blanks, a number sign, `pragma`, `warning` and a keyword
with blanks between them, and what comes behind the keyword and is no part of that word. -/
structure DirectiveLine where
  indent : List Char
  pragma : List Char
  gap : List Char
  warning : List Char
  gap' : List Char
  keyword : List Char
  rest : List Char
  indent_all : indent.all CharClass.isGap = true
  pragma_folds : Folds "pragma".toList pragma
  gap_ne : gap ≠ []
  gap_all : gap.all CharClass.isGap = true
  warning_folds : Folds "warning".toList warning
  gap'_ne : gap' ≠ []
  gap'_all : gap'.all CharClass.isGap = true
  keyword_folds : Folds "disable".toList keyword ∨ Folds "restore".toList keyword
  rest_ends : rest.head?.any CharClass.isWord = false

namespace DirectiveLine

variable (d : DirectiveLine)

/-- The line up to its keyword. -/
def front : List Char := d.indent ++ '#' :: (d.pragma ++ (d.gap ++ (d.warning ++ d.gap')))

/-- The characters of the line. -/
def chars : List Char := d.front ++ (d.keyword ++ d.rest)

/-- What the directive does is decided by the spelling of its keyword in ASCII. -/
def action : PragmaAction :=
  if d.keyword.map CharClass.lower = "disable".toList then .disable else .restore

/-- The ids that are listed behind the keyword. -/
def ids : List String := idsOf (ofChars (d.rest.takeWhile (· != '\r')))

end DirectiveLine

theorem lettered_words : ∀ w ∈ ["pragma", "warning", "disable", "restore"],
    Source.Lettered w.toList := by decide

section Keyword

variable {front cs : List Char} (hcs : Folds "disable".toList cs ∨ Folds "restore".toList cs)
include hcs

theorem isWord_of_keyword : cs ≠ [] ∧ ∀ c ∈ cs, CharClass.isWord c = true := by
  rcases hcs with h | h
  · have hletters := lettered_words "disable" (by decide)
    exact ⟨h.ne_nil hletters, h.isWord_of_mem hletters⟩
  · have hletters := lettered_words "restore" (by decide)
    exact ⟨h.ne_nil hletters, h.isWord_of_mem hletters⟩

/-- The two keywords start with different letters, so at most one of them is there. -/
theorem word?_disable_or_restore (back : List Char) :
    ((between front (cs ++ back)).word? "disable".toList).or
        ((between front (cs ++ back)).word? "restore".toList) =
      some (between (front ++ cs) back) := by
  rcases hcs with hcs | hcs
  · have hword := (@Cursor.word?_between_iff front _ _ _).mpr ⟨cs, back, rfl, hcs, rfl⟩
    rw [hword, Option.some_or]
  · have hword := (@Cursor.word?_between_iff front _ _ _).mpr ⟨cs, back, rfl, hcs, rfl⟩
    have hnone : (between front (cs ++ back)).word? "disable".toList = none := by
      rw [Option.eq_none_iff_forall_ne_some]
      intro e he
      obtain ⟨cs', back', heq, hcs', -⟩ := Cursor.word?_between_iff.mp he
      have hr : "restore".toList = ['r', 'e', 's', 't', 'o', 'r', 'e'] := rfl
      have hd : "disable".toList = ['d', 'i', 's', 'a', 'b', 'l', 'e'] := rfl
      rw [hr] at hcs
      rw [hd] at hcs'
      cases hcs with
      | cons hr _ =>
        cases hcs' with
        | cons hd _ =>
          obtain ⟨rfl, -⟩ := List.cons.inj heq
          simp [folds] at hr hd
          rw [hr] at hd
          exact absurd hd (by decide)
    rw [hnone, hword, Option.none_or]

end Keyword

theorem keyword?_between_iff {front l : List Char} {d : Cursor} :
    keyword? (between front l) = some d ↔
      ∃ cs back, l = cs ++ back ∧ (Folds "disable".toList cs ∨ Folds "restore".toList cs) ∧
        back.head?.any CharClass.isWord = false ∧ d = between (front ++ cs) back := by
  have hedge : ∀ {cs : List Char}, (Folds "disable".toList cs ∨ Folds "restore".toList cs) →
      ∀ back, (between (front ++ cs) back).atWordEdge = !back.head?.any CharClass.isWord :=
    fun hcs back =>
      Cursor.atWordEdge_between (isWord_of_keyword hcs).1 (isWord_of_keyword hcs).2
  rw [keyword?]
  constructor
  · intro h
    split at h
    · rename_i e he
      obtain ⟨hatEdge, h⟩ := Option.ite_none_right_eq_some.mp h
      obtain rfl := Option.some.inj h
      obtain ⟨cs, back, rfl, hcs, rfl⟩ : ∃ cs back, l = cs ++ back ∧
          (Folds "disable".toList cs ∨ Folds "restore".toList cs) ∧
          e = between (front ++ cs) back := by
        rcases Option.or_eq_some_iff.mp he with he | ⟨-, he⟩
        · obtain ⟨cs, back, hl, hcs, he⟩ := Cursor.word?_between_iff.mp he
          exact ⟨cs, back, hl, Or.inl hcs, he⟩
        · obtain ⟨cs, back, hl, hcs, he⟩ := Cursor.word?_between_iff.mp he
          exact ⟨cs, back, hl, Or.inr hcs, he⟩
      rw [hedge hcs] at hatEdge
      exact ⟨cs, back, rfl, hcs, by simpa using hatEdge, rfl⟩
    · cases h
  · rintro ⟨cs, back, rfl, hcs, hback, rfl⟩
    rw [word?_disable_or_restore hcs]
    simp only
    rw [if_pos]
    rw [hedge hcs, hback]
    rfl

/-- What a directive does and lists, read off the places of its keyword and of its rest. -/
theorem read_between (d : DirectiveLine) :
    (if Name.lower ((ofChars d.chars).slice ((between d.front (d.keyword ++ d.rest)).upTo
        (between (d.front ++ d.keyword) d.rest))).text == "disable"
      then PragmaAction.disable else .restore,
      idsOf ((between (d.front ++ d.keyword) d.rest).rest.takeWhile fun x => x.char != '\r')) =
    (d.action, d.ids) := by
  have hword : (ofChars d.chars).slice
      ((between d.front (d.keyword ++ d.rest)).upTo (between (d.front ++ d.keyword) d.rest)) =
        ofChars d.keyword := by
    refine @Cells.slice_of_append _ (ofChars d.front) _ (ofChars d.rest) _ ?_ rfl ?_
    · rw [DirectiveLine.chars, Cells.ofChars_append, Cells.ofChars_append]
    · rw [between_append]
      rfl
  have hlower : (Name.lower (String.ofList d.keyword) == "disable") =
      decide (d.keyword.map CharClass.lower = "disable".toList) := by
    rw [Bool.eq_iff_iff, beq_iff_eq, decide_eq_true_eq, Name.lower, String.toList_ofList,
      ← String.toList_inj, String.toList_ofList]
  have hrest : ((between (d.front ++ d.keyword) d.rest).rest.takeWhile fun x => x.char != '\r') =
      ofChars (d.rest.takeWhile (· != '\r')) := Cells.takeWhile_ofChars (· != '\r') d.rest
  rw [hword, Cells.text_ofChars, hlower, hrest, DirectiveLine.action, DirectiveLine.ids]
  simp only [decide_eq_true_eq]

theorem isGap_eq : isGap = fun x => CharClass.isGap x.char := rfl

/-- **A line that is made of the parts of a directive is read as that directive.** -/
theorem ofLine?_chars (d : DirectiveLine) :
    ofLine? (ofChars d.chars) = some (d.action, d.ids) := by
  have hletters := lettered_words
  have hstart : (Cursor.mk none 0 (ofChars d.chars)) = between [] d.chars := rfl
  have hsplit : d.chars = d.indent ++ ('#' :: (d.pragma ++ (d.gap ++ (d.warning ++ (d.gap' ++
      (d.keyword ++ d.rest)))))) := by
    simp [DirectiveLine.chars, DirectiveLine.front]
  have hfront :
      [] ++ d.indent ++ ['#'] ++ d.pragma ++ d.gap ++ d.warning ++ d.gap' = d.front := by
    simp [DirectiveLine.front]
  have hkeyword : (d.keyword ++ d.rest).head?.any CharClass.isGap = false := by
    obtain ⟨hne, hword⟩ := isWord_of_keyword d.keyword_folds
    obtain ⟨c, cs, hcs⟩ := List.exists_cons_of_ne_nil hne
    rw [hcs] at hword ⊢
    simpa using CharClass.isGap_of_isWord (hword c List.mem_cons_self)
  have hmark : ((between [] d.chars).skipWhile fun x => CharClass.isGap x.char).mark? '#' =
      some (between ([] ++ d.indent ++ ['#']) (d.pragma ++ (d.gap ++ (d.warning ++ (d.gap' ++
        (d.keyword ++ d.rest)))))) := by
    rw [hsplit, Cursor.skipWhile_between d.indent_all rfl]
    exact (Cursor.mark?_between_iff (by decide)).mpr ⟨_, rfl, rfl⟩
  simp only [ofLine?, Option.bind_eq_bind, Option.bind_eq_some_iff, hstart, isGap_eq]
  refine ⟨_, hmark, _, Cursor.word?_between_iff.mpr ⟨_, _, rfl, d.pragma_folds, rfl⟩, _,
    Cursor.some?_between_iff.mpr ⟨_, _, rfl, d.gap_ne, d.gap_all,
      d.warning_folds.head?_append (hletters _ (by decide)) _, rfl⟩, _,
    Cursor.word?_between_iff.mpr ⟨_, _, rfl, d.warning_folds, rfl⟩, _,
    Cursor.some?_between_iff.mpr ⟨_, _, rfl, d.gap'_ne, d.gap'_all, hkeyword, rfl⟩, _,
    keyword?_between_iff.mpr ⟨_, _, rfl, d.keyword_folds, d.rest_ends, rfl⟩, ?_⟩
  rw [hfront]
  exact congrArg some (read_between d)

/-- **A line is read as a directive exactly if it is made of the parts of one.** -/
theorem ofLine?_eq_some_iff {line : List Char} {r : PragmaAction × List String} :
    ofLine? (ofChars line) = some r ↔
      ∃ d : DirectiveLine, d.chars = line ∧ r = (d.action, d.ids) := by
  constructor
  · intro h
    have hstart : (Cursor.mk none 0 (ofChars line)) = between [] line := rfl
    simp only [ofLine?, Option.bind_eq_bind, Option.bind_eq_some_iff, hstart, isGap_eq] at h
    obtain ⟨c₁, h₁, c₂, h₂, c₃, h₃, c₄, h₄, c₅, h₅, c₆, h₆, h⟩ := h
    obtain ⟨indent, l, rfl, hindent, hl⟩ := exists_run CharClass.isGap line
    rw [Cursor.skipWhile_between hindent hl] at h₁
    obtain ⟨l, rfl, rfl⟩ := (Cursor.mark?_between_iff (by decide)).mp h₁
    obtain ⟨pragma, l, rfl, hpragma, rfl⟩ := Cursor.word?_between_iff.mp h₂
    obtain ⟨gap, l, rfl, hne, hall, -, rfl⟩ := Cursor.some?_between_iff.mp h₃
    obtain ⟨warning, l, rfl, hwarning, rfl⟩ := Cursor.word?_between_iff.mp h₄
    obtain ⟨gap', l, rfl, hne', hall', -, rfl⟩ := Cursor.some?_between_iff.mp h₅
    obtain ⟨keyword, rest, rfl, hkeyword, hrest, rfl⟩ := keyword?_between_iff.mp h₆
    let d : DirectiveLine := ⟨indent, pragma, gap, warning, gap', keyword, rest, hindent, hpragma,
      hne, hall, hwarning, hne', hall', hkeyword, hrest⟩
    have hfront : [] ++ indent ++ ['#'] ++ pragma ++ gap ++ warning ++ gap' = d.front := by
      simp [d, DirectiveLine.front]
    have hchars : d.chars = indent ++ '#' :: (pragma ++ (gap ++ (warning ++ (gap' ++
        (keyword ++ rest))))) := by
      simp [d, DirectiveLine.chars, DirectiveLine.front]
    refine ⟨d, hchars, ?_⟩
    rw [hfront, ← hchars] at h
    exact (Option.some.inj h).symm.trans (read_between d)
  · rintro ⟨d, rfl, rfl⟩
    exact ofLine?_chars d

/-! ### All lines -/

/-- The text is made of whole lines, each with its line feed. -/
def WholeLines (text : List Char) : Prop := text = [] ∨ ∃ init, text = init ++ ['\n']

/-- The line stands in the text behind `before`: it starts where a line starts, and goes up to the
end of that line. -/
structure LineAt (text before line : List Char) : Prop where
  starts : WholeLines before
  single : '\n' ∉ line
  stands : ∃ after, text = before ++ (line ++ after) ∧ (after = [] ∨ ∃ more, after = '\n' :: more)

/-- What stands before the first line feed is known, and so is what stands behind it. -/
theorem append_feed_inj {a b x y : List Char} (ha : '\n' ∉ a) (hb : '\n' ∉ b)
    (h : a ++ '\n' :: x = b ++ '\n' :: y) : a = b ∧ x = y := by
  induction a generalizing b with
  | nil =>
    cases b with
    | nil => exact ⟨rfl, (List.cons.inj h).2⟩
    | cons c b => exact absurd ((List.cons.inj h).1 ▸ List.mem_cons_self) hb
  | cons c a ih =>
    cases b with
    | nil => exact absurd ((List.cons.inj h).1 ▸ List.mem_cons_self) ha
    | cons c' b =>
      obtain ⟨rfl, hrest⟩ := List.cons.inj h
      obtain ⟨rfl, rfl⟩ := ih (fun hmem => ha (List.mem_cons_of_mem c hmem))
        (fun hmem => hb (List.mem_cons_of_mem c hmem)) hrest
      exact ⟨rfl, rfl⟩

theorem WholeLines.of_append {front text : List Char} (h : WholeLines (front ++ '\n' :: text)) :
    WholeLines text := by
  rcases List.eq_nil_or_concat' text with rfl | ⟨init', c, rfl⟩
  · exact Or.inl rfl
  · rcases h with hnil | ⟨init, hinit⟩
    · simp at hnil
    · rw [← List.cons_append, ← List.append_assoc] at hinit
      obtain ⟨-, hc⟩ := List.append_inj' hinit rfl
      exact Or.inr ⟨init', by rw [hc]⟩

theorem LineAt.before_eq_nil {text before line : List Char} (h : LineAt text before line)
    (hmem : '\n' ∉ before) : before = [] := by
  rcases h.starts with hnil | ⟨init, rfl⟩
  · exact hnil
  · exact absurd (by simp) hmem

theorem lineAt_iff_of_not_mem {text before line : List Char} (htext : '\n' ∉ text) :
    LineAt text before line ↔ before = [] ∧ line = text := by
  constructor
  · intro h
    obtain ⟨after, rfl, hafter⟩ := h.stands
    rw [List.mem_append, List.mem_append, not_or, not_or] at htext
    obtain rfl := h.before_eq_nil htext.1
    rcases hafter with rfl | ⟨more, rfl⟩
    · exact ⟨rfl, by simp⟩
    · exact absurd List.mem_cons_self htext.2.2
  · rintro ⟨rfl, rfl⟩
    exact ⟨Or.inl rfl, htext, [], by simp, Or.inl rfl⟩

/-- The lines of a text are the first one, up to the first line feed, and those behind that. -/
theorem lineAt_append_feed_iff {first later before line : List Char} (hfirst : '\n' ∉ first) :
    LineAt (first ++ '\n' :: later) before line ↔
      before = [] ∧ line = first ∨
        ∃ before', before = first ++ '\n' :: before' ∧ LineAt later before' line := by
  constructor
  · intro h
    obtain ⟨after, htext, hafter⟩ := h.stands
    by_cases hmem : '\n' ∈ before
    · -- what stands before the line starts with the whole first line
      obtain ⟨front, before', rfl, hfront⟩ := List.eq_append_cons_of_mem hmem
      rw [List.append_assoc, List.cons_append] at htext
      obtain ⟨rfl, hlater⟩ := append_feed_inj hfirst hfront htext
      exact Or.inr ⟨before', rfl, h.starts.of_append, h.single, after, hlater, hafter⟩
    · obtain rfl := h.before_eq_nil hmem
      rcases hafter with rfl | ⟨more, rfl⟩
      · have hline : first ++ '\n' :: later = line := by simpa using htext
        exact absurd (by rw [← hline]; simp) h.single
      · exact Or.inl ⟨rfl, (append_feed_inj hfirst h.single htext).1.symm⟩
  · rintro (⟨rfl, rfl⟩ | ⟨before', rfl, h⟩)
    · exact ⟨Or.inl rfl, hfirst, '\n' :: later, rfl, Or.inr ⟨later, rfl⟩⟩
    · obtain ⟨after, rfl, hafter⟩ := h.stands
      refine ⟨?_, h.single, after, by simp, hafter⟩
      rcases h.starts with rfl | ⟨init, rfl⟩
      · exact Or.inr ⟨first, rfl⟩
      · exact Or.inr ⟨first ++ '\n' :: init, by simp⟩

theorem lines_ofChars_of_not_mem {line : List Char} (h : '\n' ∉ line) (offset : Nat) :
    (ofChars line).lines offset = [(offset, ofChars line)] := by
  rw [Cells.lines, Cells.linesFrom_of_no_feed (Cells.char_ne_of_not_mem h)]
  rfl

theorem lines_ofChars_append {first : List Char} (h : '\n' ∉ first) (later : List Char)
    (offset : Nat) :
    (ofChars (first ++ '\n' :: later)).lines offset =
      (offset, ofChars first) :: (ofChars later).lines (offset + (ofChars first).length + 1) := by
  have hfeed : ofChars ('\n' :: later) = ⟨'\n', true⟩ :: ofChars later := by
    rw [Cells.ofChars_cons]
    rfl
  rw [Cells.ofChars_append, hfeed, Cells.lines, Cells.linesFrom_append_feed rfl,
    Cells.linesFrom_of_no_feed (Cells.char_ne_of_not_mem h)]
  rfl

theorem mem_ofLines_cons {p : Pragma} {number offset : Nat} {line : List Char}
    {later : List (Nat × Cells)} :
    p ∈ ofLines number ((offset, ofChars line) :: later) ↔
      (∃ d : DirectiveLine, d.chars = line ∧ p = ⟨d.action, d.ids, number, offset⟩) ∨
        p ∈ ofLines (number + 1) later := by
  rw [ofLines]
  split
  · rename_i action ids hline
    obtain ⟨d, hd, heq⟩ := ofLine?_eq_some_iff.mp hline
    obtain ⟨rfl, rfl⟩ := Prod.mk.inj heq
    rw [List.mem_cons]
    refine or_congr_left ⟨fun hp => ⟨d, hd, hp⟩, ?_⟩
    rintro ⟨d', hd', rfl⟩
    obtain ⟨hsame, hsame'⟩ := Prod.mk.inj
      (Option.some.inj (hline.symm.trans (ofLine?_eq_some_iff.mpr ⟨d', hd', rfl⟩)))
    rw [hsame, hsame']
  · rename_i hline
    refine (or_iff_right ?_).symm
    rintro ⟨d, hd, -⟩
    rw [ofLine?_eq_some_iff.mpr ⟨d, hd, rfl⟩] at hline
    cases hline

/-- The directives in the rest of a text, whose first line has the given number and offset. -/
theorem mem_ofLines_lines_iff {p : Pragma} {number offset : Nat} (text : List Char) :
    p ∈ ofLines number ((ofChars text).lines offset) ↔
      ∃ before, ∃ d : DirectiveLine, LineAt text before d.chars ∧
        p = ⟨d.action, d.ids, number + before.count '\n', offset + (ofChars before).length⟩ := by
  by_cases hfeed : '\n' ∈ text
  · obtain ⟨first, later, rfl, hfirst⟩ := List.eq_append_cons_of_mem hfeed
    rw [lines_ofChars_append hfirst, mem_ofLines_cons, mem_ofLines_lines_iff later]
    simp only [lineAt_append_feed_iff hfirst]
    have hcount : ∀ before : List Char,
        (first ++ '\n' :: before).count '\n' = before.count '\n' + 1 := by
      intro before
      simp [List.count_append, List.count_eq_zero_of_not_mem hfirst]
    have hlength : ∀ before : List Char, (ofChars (first ++ '\n' :: before)).length =
        (ofChars first).length + 1 + (ofChars before).length := by
      intro before
      rw [Cells.ofChars_append, Cells.ofChars_cons, List.length_append, List.length_append,
        Nat.add_assoc]
      rfl
    constructor
    · rintro (⟨d, hd, rfl⟩ | ⟨before', d, hline, rfl⟩)
      · exact ⟨[], d, Or.inl ⟨rfl, hd⟩, rfl⟩
      · refine ⟨first ++ '\n' :: before', d, Or.inr ⟨before', rfl, hline⟩, ?_⟩
        rw [hcount, hlength]
        simp only [Pragma.mk.injEq, true_and]
        omega
    · rintro ⟨before, d, ⟨rfl, hd⟩ | ⟨before', rfl, hline⟩, rfl⟩
      · exact Or.inl ⟨d, hd, rfl⟩
      · refine Or.inr ⟨before', d, hline, ?_⟩
        rw [hcount, hlength]
        simp only [Pragma.mk.injEq, true_and]
        omega
  · rw [lines_ofChars_of_not_mem hfeed, mem_ofLines_cons]
    simp only [lineAt_iff_of_not_mem hfeed, ofLines, List.not_mem_nil, or_false]
    constructor
    · rintro ⟨d, hd, rfl⟩
      exact ⟨[], d, ⟨rfl, hd⟩, rfl⟩
    · rintro ⟨before, d, ⟨rfl, hd⟩, rfl⟩
      exact ⟨d, hd, rfl⟩
termination_by text.length

/-- **The directives of a source are its lines that are made of the parts of one**, each with its
number and the offset where it starts. -/
theorem mem_parse_iff {source : String} {p : Pragma} :
    p ∈ parse source ↔
      ∃ before, ∃ d : DirectiveLine, LineAt source.toList before d.chars ∧
        p = ⟨d.action, d.ids, before.count '\n' + 1, (String.ofList before).utf8ByteSize⟩ := by
  rw [parse, Cells.ofString, mem_ofLines_lines_iff]
  simp only [Nat.add_comm 1, Nat.zero_add, Cells.length_ofChars]

/-! ### Line numbers -/

/-- The number of a directive's line is the one that the line index finds for its offset. Line
`number` starts at `start`, and so much of the text is read as stands before `pos`. -/
theorem locate_of_mem_ofLines {p : Pragma} (cs : Cells) {number start pos : Nat} (line : Cells)
    (hle : start ≤ pos) (hp : p ∈ ofLines number (Cells.linesFrom start pos line cs)) :
    LineIndex.locate number start (LineIndex.startsFrom pos cs) p.offset = (p.line, 1) := by
  have hoffset : ∀ {ls : List (Nat × Cells)} {number}, p ∈ ofLines number ls →
      p.offset ∈ ls.map (·.1) := fun hp =>
    (offsets_ofLines_sublist _ _).subset (List.mem_map.mpr ⟨p, hp, rfl⟩)
  have hfirst : ∀ {number start : Nat} {l : Cells} {later : List (Nat × Cells)},
      p ∈ ofLines number ((start, l) :: later) →
        p.line = number ∧ p.offset = start ∨ p ∈ ofLines (number + 1) later := by
    intro number start l later hp
    rw [ofLines] at hp
    split at hp
    · rcases List.mem_cons.mp hp with rfl | hp
      · exact Or.inl ⟨rfl, rfl⟩
      · exact Or.inr hp
    · exact Or.inr hp
  induction cs generalizing number start pos line with
  | nil =>
    rcases hfirst hp with ⟨hline, hstart⟩ | hp
    · simp [LineIndex.startsFrom, LineIndex.locate, hline, hstart]
    · cases hp
  | cons c cs ih =>
    rw [Cells.linesFrom] at hp
    rw [LineIndex.startsFrom]
    by_cases hc : c.char = '\n'
    · rw [if_pos hc] at hp ⊢
      rw [LineIndex.locate]
      rcases hfirst hp with ⟨hline, hstart⟩ | hp
      · rw [if_neg (by omega), hline, hstart, Nat.sub_self]
      · have hafter := (Cells.pairwise_linesFrom cs (pos + 1) (pos + 1) [] (Nat.le_refl _)).2 _
          (hoffset hp)
        rw [if_pos hafter]
        exact ih [] (Nat.le_refl _) hp
    · rw [if_neg hc] at hp ⊢
      exact ih (c :: line) (by omega) hp

/-- **The two ways to count lines agree**: the line index finds every directive in the first column
of its line. -/
theorem position_of_mem_parse {source : String} {p : Pragma} (hp : p ∈ parse source) :
    (LineIndex.ofCells (Cells.ofString source)).position p.offset = (p.line, 1) :=
  locate_of_mem_ofLines (Cells.ofString source) [] (Nat.le_refl 0) hp

end Pragma
end TreeLint
