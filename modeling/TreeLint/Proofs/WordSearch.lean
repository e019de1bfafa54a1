/-
# Searching a text for words

A pattern that matches only where a word starts finds nothing within a character,
so a search over the bytes of a text is a search over its characters. A keyword
is found exactly if it stands somewhere in the text as a word of its own
(`Source.first?_keyword_isSome_iff`), and where neither side of a cut goes on a
word, it stands in the whole text exactly if it stands in one of the two parts.

Key definitions: `Cursor.behind`, `CharClass.HasWord`.
Key theorems: `Pattern.all_behind_append`, `Cursor.wholeWord?_behind_iff`,
`Source.first?_keyword_isSome_iff`, `CharClass.hasWord_append_iff`.
-/
import TreeLint.Proofs.DirectiveLines

namespace TreeLint

open Cells (ofChars lastOr)
open CharClass (Folds isWord)

namespace Cells

variable {q : Char → Bool} {before : Option Cell} {cs : List Char}

/-- The byte before the place behind a text belongs to the last character of the text. -/
theorem any_lastOr_of_ne_nil (hne : cs ≠ []) :
    (lastOr before (ofChars cs)).any (fun x => q x.char) = cs.getLast?.any q := by
  rcases List.eq_nil_or_concat' cs with rfl | ⟨init, c, rfl⟩
  · exact absurd rfl hne
  · have hofChar : ∀ x ∈ Cell.ofChar c, q x.char = q c := by
      intro x hx
      have hx' : x ∈ ofChars [c] := by simpa [ofChars] using hx
      rw [List.mem_singleton.mp (char_mem_of_mem_ofChars hx')]
    rw [List.getLast?_concat, ofChars_append, lastOr_append, ofChars_cons]
    refine any_lastOr (fun hnil => absurd hnil (List.cons_ne_nil _ _)) fun x hx => ?_
    rw [show ofChars [] = [] from rfl, List.append_nil] at hx
    exact hofChar x hx

theorem any_lastOr_ofChars (hbefore : before.any (fun x => q x.char) = false) (cs : List Char) :
    (lastOr before (ofChars cs)).any (fun x => q x.char) = cs.getLast?.any q := by
  by_cases hne : cs = []
  · subst hne
    exact hbefore
  · exact any_lastOr_of_ne_nil hne

theorem getLast?_of_lastOr (h : (lastOr before (ofChars cs)).any (fun x => q x.char) = false) :
    cs.getLast?.any q = false := by
  by_cases hne : cs = []
  · subst hne
    rfl
  · rw [← any_lastOr_of_ne_nil hne, h]

end Cells

/-- The place between two parts of a text that stands at `pos` behind the byte `before`. -/
def Cursor.behind (before : Option Cell) (pos : Nat) (front back : List Char) : Cursor :=
  ⟨lastOr before (ofChars front), pos + (ofChars front).length, ofChars back⟩

theorem Cursor.behind_append (before : Option Cell) (pos : Nat) (front mid back : List Char) :
    behind before pos (front ++ mid) back =
      behind (lastOr before (ofChars front)) (pos + (ofChars front).length) mid back := by
  rw [behind, behind, Cells.ofChars_append, Cells.lastOr_append, List.length_append, Nat.add_assoc]

theorem Cursor.behind_none (front back : List Char) : behind none 0 front back = between front back := by
  rw [behind, between, Nat.zero_add]

open Cursor (behind)

variable {before : Option Cell} {pos : Nat} {front cs rest : List Char}

/-! ### Character by character -/

namespace Pattern

variable {α : Type} {p : Pattern α}

section OnWords

variable (hp : p.OnWords)
include hp

/-- Behind the first byte of a character no word starts before its last byte. -/
theorem allFrom_continued {c : Char} (hc : c ≠ '"') (lead : Bool) (pos n : Nat) (cells : Cells) :
    p.allFrom 0 (some ⟨c, lead⟩) pos (List.replicate n ⟨c, false⟩ ++ cells) =
      p.allFrom 0 (lastOr (some ⟨c, lead⟩) (List.replicate n ⟨c, false⟩)) (pos + n) cells := by
  induction n generalizing lead pos with
  | zero => rfl
  | succ n ih =>
    have hnone : p ⟨some ⟨c, lead⟩, pos, ⟨c, false⟩ :: (List.replicate n ⟨c, false⟩ ++ cells)⟩ =
        none := by
      refine hp _ (by simpa using hc) ?_
      cases hword : isWord c with
      | true => exact Or.inl (by simpa [Cell.isWord] using hword)
      | false => exact Or.inr (by simpa [Cells.EndsWord, Cell.isWord] using hword)
    rw [List.replicate_succ, List.cons_append, allFrom_cons_of_none hnone, ih, Nat.add_assoc,
      Nat.add_comm 1]
    rfl

/-- A character at which the pattern does not match is passed over. -/
theorem allFrom_ofChars_cons {c : Char} (h : p ⟨before, pos, ofChars (c :: cs)⟩ = none) :
    p.allFrom 0 before pos (ofChars (c :: cs)) =
      p.allFrom 0 (lastOr before (Cell.ofChar c)) (pos + c.utf8Size) (ofChars cs) := by
  have hpos := c.utf8Size_pos
  rw [Cells.ofChars_cons, Cell.ofChar, List.cons_append] at h ⊢
  rw [allFrom_cons_of_none h, Cells.lastOr_cons]
  by_cases hc : c = '"'
  · subst hc
    rfl
  · rw [allFrom_continued hp hc, show pos + 1 + (c.utf8Size - 1) = pos + c.utf8Size by omega]

/-- **A part of a text in which the pattern matches nowhere is passed over.** -/
theorem all_behind_append (h : ∀ a b, cs = a ++ b → b ≠ [] →
      p (behind before pos (front ++ a) (b ++ rest)) = none) :
    p.all (behind before pos front (cs ++ rest)) = p.all (behind before pos (front ++ cs) rest) := by
  induction cs generalizing front with
  | nil => rw [List.nil_append, List.append_nil]
  | cons c cs ih =>
    have hfirst := h [] (c :: cs) rfl (List.cons_ne_nil c cs)
    rw [List.append_nil] at hfirst
    have hstep : p.all (behind before pos front (c :: cs ++ rest)) =
        p.all (behind before pos (front ++ [c]) (cs ++ rest)) := by
      rw [all, all, Cursor.behind_append, behind, behind, Cells.ofChars_cons c [],
        show ofChars [] = [] from rfl, List.append_nil, Cells.length_ofChar]
      exact allFrom_ofChars_cons hp hfirst
    rw [hstep, ih, List.append_assoc, List.singleton_append]
    intro a b hab hb
    have hlater := h (c :: a) b (by rw [hab]; rfl) hb
    rwa [List.append_assoc, List.singleton_append]

end OnWords

theorem all_behind_match {mid : List Char} {a : α}
    (h : p (behind before pos front (mid ++ rest)) = some (a, behind before pos (front ++ mid) rest))
    (hne : mid ≠ []) : p.all (behind before pos front (mid ++ rest)) =
      ⟨⟨pos + (ofChars front).length, pos + (ofChars (front ++ mid)).length⟩, a⟩ ::
        p.all (behind before pos (front ++ mid) rest) := by
  rw [Cursor.behind_append, behind, behind, Cells.ofChars_append] at h
  rw [all, all, Cursor.behind_append, behind, behind, Cells.ofChars_append,
    allFrom_match h rfl (mt Cells.ofChars_eq_nil_iff.mp hne), Cells.ofChars_append,
    List.length_append, Nat.add_assoc]

theorem first?_eq_head? (p : Pattern α) (c : Cursor) : p.first? c = (p.all c).head? :=
  firstFrom_eq_head? _ _ _

theorem firstFrom_ne_none {mid back : Cells} (hback : back ≠ [])
    (h : p ⟨lastOr before mid, pos + mid.length, back⟩ ≠ none) :
    p.firstFrom before pos (mid ++ back) ≠ none := by
  induction mid generalizing before pos with
  | nil =>
    obtain ⟨x, back, rfl⟩ := List.exists_cons_of_ne_nil hback
    rw [List.nil_append, firstFrom]
    split
    · exact Option.some_ne_none _
    · rename_i hnone
      exact absurd hnone h
  | cons x mid ih =>
    rw [List.cons_append, firstFrom]
    split
    · exact Option.some_ne_none _
    · refine ih ?_
      rwa [Nat.add_assoc, Nat.add_comm 1]

/-- **Something is found exactly if the pattern matches at some character.** -/
theorem first?_behind_isSome_iff (hp : p.OnWords) :
    (p.first? (behind before pos front cs)).isSome = true ↔
      ∃ a b, cs = a ++ b ∧ b ≠ [] ∧ p (behind before pos (front ++ a) b) ≠ none := by
  constructor
  · intro h
    by_contra hno
    push Not at hno
    have hall := @all_behind_append before pos front cs [] α p hp fun a b hab hb => by
      rw [List.append_nil]
      exact hno a b hab hb
    rw [List.append_nil] at hall
    rw [first?_eq_head?, hall] at h
    cases h
  · rintro ⟨a, b, rfl, hb, h⟩
    rw [Option.isSome_iff_ne_none, first?, behind, Cells.ofChars_append]
    refine firstFrom_ne_none (mt Cells.ofChars_eq_nil_iff.mp hb) ?_
    rwa [Cursor.behind_append] at h

end Pattern

namespace Cursor

variable {d : Cursor}

/-! ### Steps over a part of a text -/

theorem word?_behind_iff {word : List Char} :
    (behind before pos front cs).word? word = some d ↔
      ∃ mid back, cs = mid ++ back ∧ Folds word mid ∧ d = behind before pos (front ++ mid) back := by
  simp only [behind_append]
  exact word?_ofChars_iff

theorem moveTo_behind (before : Option Cell) (pos : Nat) (front rest : List Char) {target : Nat}
    (h : target = pos + (ofChars front).length) :
    (behind before pos [] (front ++ rest)).moveTo target = behind before pos front rest := by
  subst h
  rw [behind, behind, Cells.ofChars_append]
  exact moveTo_append before pos (ofChars front) (ofChars rest) rfl

theorem stopAt_behind (before : Option Cell) (pos : Nat) (front cs rest : List Char) {limit : Nat}
    (h : limit = pos + (ofChars (front ++ cs)).length) :
    (behind before pos front (cs ++ rest)).stopAt limit = behind before pos front cs := by
  subst h
  rw [behind, behind, Cells.ofChars_append]
  refine stopAt_append _ _ (ofChars cs) (ofChars rest) ?_
  rw [Cells.ofChars_append, List.length_append, Nat.add_assoc]

theorem mark?_behind {x : Char} (hx : x.utf8Size = 1) :
    (behind before pos front (x :: rest)).mark? x = some (behind before pos (front ++ [x]) rest) := by
  have hcell : Cell.ofChar x = [⟨x, true⟩] := by
    rw [Cell.ofChar, hx]
    rfl
  have hcells : ofChars [x] = [⟨x, true⟩] := by simp [ofChars, hcell]
  rw [behind_append, behind, behind, Cells.ofChars_cons, hcell, hcells]
  exact mark?_cons x

theorem skipWhile_behind {q : Char → Bool} {run : List Char} (hrun : ∀ c ∈ run, q c = true)
    (hrest : rest.head?.any q = false) :
    (behind before pos front (run ++ rest)).skipWhile (fun x => q x.char) =
      behind before pos (front ++ run) rest := by
  rw [behind_append, behind, behind, Cells.ofChars_append]
  refine skipWhile_append (fun x hx => hrun _ (Cells.char_mem_of_mem_ofChars hx)) ?_
  exact (Cells.head?_ofChars_any q rest).trans hrest

theorem some?_behind_iff {q : Char → Bool} :
    (behind before pos front cs).some? (fun x => q x.char) = some d ↔
      ∃ run back, cs = run ++ back ∧ run ≠ [] ∧ (∀ c ∈ run, q c = true) ∧ back.head?.any q = false ∧
        d = behind before pos (front ++ run) back := by
  have hhead : (behind before pos front cs).rest.head?.any (fun x => q x.char) = cs.head?.any q :=
    Cells.head?_ofChars_any q cs
  rw [some?, hhead, Option.ite_none_right_eq_some]
  constructor
  · rintro ⟨hfirst, h⟩
    obtain ⟨run, back, rfl, hrun, hback⟩ := exists_run q cs
    have hrun := List.all_eq_true.mp hrun
    rw [skipWhile_behind hrun hback] at h
    refine ⟨run, back, rfl, ?_, hrun, hback, (Option.some.inj h).symm⟩
    rintro rfl
    rw [List.nil_append, hback] at hfirst
    cases hfirst
  · rintro ⟨run, back, rfl, hne, hrun, hback, rfl⟩
    rw [skipWhile_behind hrun hback]
    refine ⟨?_, rfl⟩
    obtain ⟨c, run, rfl⟩ := List.exists_cons_of_ne_nil hne
    simpa using hrun c List.mem_cons_self

theorem name?_plain {letter : Char → Bool} {name : List Char}
    (hfirst : (name.head?.any fun c => letter c || c == '_') = true)
    (hname : ∀ c ∈ name, isWord c = true) (hrest : rest.head?.any isWord = false) :
    (behind before pos front (name ++ rest)).name? letter =
      some ((behind before pos front (name ++ rest)).upTo (behind before pos (front ++ name) rest),
        behind before pos (front ++ name) rest) := by
  obtain ⟨c, name, rfl⟩ : ∃ c name', name = c :: name' := by
    cases name with
    | nil => cases hfirst
    | cons c name => exact ⟨c, name, rfl⟩
  have hquote : (behind before pos front (c :: name ++ rest)).quoted? = none := by
    refine quoted?_eq_none ((Cells.head?_ofChars_any (· == '"') _).trans ?_)
    rw [List.cons_append, List.head?_cons, Option.any_some, beq_eq_false_iff_ne]
    rintro rfl
    exact absurd (hname _ List.mem_cons_self) (by decide)
  have hhead : (behind before pos front (c :: name ++ rest)).rest.head?.any
      (fun x => letter x.char || x.char == '_') = true :=
    (Cells.head?_ofChars_any (fun c => letter c || c == '_') _).trans hfirst
  rw [name?, hquote, Option.none_or, plain?, if_pos hhead]
  exact congrArg (fun d => some (upTo _ d, d)) (skipWhile_behind hname hrest)

theorem name?_quoted {letter : Char → Bool} {content : List Char} (h : '"' ∉ content) :
    (behind before pos front ('"' :: (content ++ ['"']) ++ rest)).name? letter =
      some ((behind before pos front ('"' :: (content ++ ['"']) ++ rest)).upTo
          (behind before pos (front ++ '"' :: (content ++ ['"'])) rest),
        behind before pos (front ++ '"' :: (content ++ ['"'])) rest) := by
  have hsplit : '"' :: (content ++ ['"']) ++ rest = '"' :: (content ++ '"' :: rest) := by simp
  have hskip : (behind before pos (front ++ ['"']) (content ++ '"' :: rest)).skipWhile
      (fun x => x.char != '"') = behind before pos (front ++ ['"'] ++ content) ('"' :: rest) :=
    skipWhile_behind (q := (· != '"')) (fun c hc => bne_iff_ne.mpr (ne_of_mem_of_not_mem hc h)) rfl
  have hquoted : (behind before pos front ('"' :: (content ++ '"' :: rest))).quoted? =
      some (behind before pos (front ++ '"' :: (content ++ ['"'])) rest) := by
    rw [quoted?, mark?_behind rfl]
    simp only
    rw [hskip, mark?_behind rfl]
    simp
  rw [hsplit, name?, hquoted, Option.some_or]

/-! ### Whole words -/

/-- **A whole word is there exactly if no word character is next to it.** -/
theorem wholeWord?_behind_iff {word : List Char} (hword : Source.Lettered word) :
    (behind before pos front cs).wholeWord? word = some d ↔
      (lastOr before (ofChars front)).any Cell.isWord = false ∧ ∃ mid back, cs = mid ++ back ∧
        Folds word mid ∧ back.head?.any isWord = false ∧ d = behind before pos (front ++ mid) back := by
  -- where the word stands, there is an edge before it unless a word goes on
  have hstart : ∀ mid back, cs = mid ++ back → Folds word mid →
      ((behind before pos front cs).atWordEdge = true ↔
        (lastOr before (ofChars front)).any Cell.isWord = false) := by
    rintro mid back rfl hfolds
    obtain ⟨c, mid, rfl⟩ := List.exists_cons_of_ne_nil (hfolds.ne_nil hword)
    have hc : isWord c = true := hfolds.isWord_of_mem hword c List.mem_cons_self
    have hhead : (behind before pos front (c :: mid ++ back)).rest.head?.any Cell.isWord = true :=
      (Cells.head?_ofChars_any isWord _).trans (by simpa using hc)
    rw [atWordEdge, hhead, behind]
    cases (lastOr before (ofChars front)).any Cell.isWord <;> decide
  -- and behind it unless the word goes on
  have hend : ∀ mid back, Folds word mid →
      ((behind before pos (front ++ mid) back).atWordEdge = true ↔
        back.head?.any isWord = false) := by
    intro mid back hfolds
    have hlast : (behind before pos (front ++ mid) back).before.any Cell.isWord = true := by
      rw [behind_append, behind]
      refine Cells.any_lastOr (fun hnil => ?_) fun x hx =>
        hfolds.isWord_of_mem hword _ (Cells.char_mem_of_mem_ofChars hx)
      exact absurd (Cells.ofChars_eq_nil_iff.mp hnil) (hfolds.ne_nil hword)
    have hhead : (behind before pos (front ++ mid) back).rest.head?.any Cell.isWord =
        back.head?.any isWord := Cells.head?_ofChars_any isWord back
    rw [atWordEdge, hlast, hhead]
    cases back.head?.any isWord <;> decide
  rw [wholeWord?]
  constructor
  · intro h
    split at h
    · rename_i hedge
      split at h
      · rename_i e he
        split at h
        · rename_i hedge'
          cases h
          obtain ⟨mid, back, hcs, hfolds, rfl⟩ := word?_behind_iff.mp he
          exact ⟨(hstart mid back hcs hfolds).mp hedge, mid, back, hcs, hfolds,
            (hend mid back hfolds).mp hedge', rfl⟩
        · cases h
      · cases h
    · cases h
  · rintro ⟨hlast, mid, back, hcs, hfolds, hback, rfl⟩
    have hfound : (behind before pos front cs).word? word =
        some (behind before pos (front ++ mid) back) :=
      word?_behind_iff.mpr ⟨mid, back, hcs, hfolds, rfl⟩
    rw [if_pos ((hstart mid back hcs hfolds).mpr hlast), hfound]
    exact if_pos ((hend mid back hfolds).mpr hback)

end Cursor

/-! ### A word of its own -/

namespace CharClass

/-- The word stands in the text in some case, with no word character next to it. -/
def HasWord (word cs : List Char) : Prop :=
  ∃ front mid back, cs = front ++ (mid ++ back) ∧ Folds word mid ∧
    front.getLast?.any isWord = false ∧ back.head?.any isWord = false

variable {word cs' : List Char}

/-- The one word of a text of word characters is the text. -/
theorem HasWord.folds (h : HasWord word cs) (hcs : ∀ c ∈ cs, isWord c = true) :
    Folds word cs := by
  obtain ⟨front, mid, back, rfl, hfolds, hfront, hback⟩ := h
  have hnil : front = [] := by
    rcases List.eq_nil_or_concat' front with rfl | ⟨front, c, rfl⟩
    · rfl
    · rw [List.getLast?_concat, Option.any_some, hcs c (by simp)] at hfront
      cases hfront
  have hnil' : back = [] := by
    cases back with
    | nil => rfl
    | cons c back =>
      rw [List.head?_cons, Option.any_some, hcs c (by simp)] at hback
      cases hback
  rwa [hnil, hnil', List.nil_append, List.append_nil]

section Lettered

variable (hword : Source.Lettered word)
include hword

theorem not_hasWord_of_forall (h : ∀ c ∈ cs, isWord c = false) : ¬ HasWord word cs := by
  rintro ⟨front, mid, back, rfl, hfolds, -, -⟩
  obtain ⟨c, mid, rfl⟩ := List.exists_cons_of_ne_nil (hfolds.ne_nil hword)
  have hc := h c (by simp)
  rw [hfolds.isWord_of_mem hword c List.mem_cons_self] at hc
  cases hc

section Cut

variable (hcut : cs.getLast?.any isWord = false ∨ cs'.head?.any isWord = false)
include hcut

theorem HasWord.append_right (h : HasWord word cs) : HasWord word (cs ++ cs') := by
  obtain ⟨front, mid, back, rfl, hfolds, hfront, hback⟩ := h
  refine ⟨front, mid, back ++ cs', by simp only [List.append_assoc], hfolds, hfront, ?_⟩
  cases back with
  | cons c back => exact hback
  | nil =>
    refine hcut.resolve_left fun hlast => ?_
    obtain ⟨c, hc⟩ := Option.isSome_iff_exists.mp (List.getLast?_isSome.mpr (hfolds.ne_nil hword))
    rw [List.append_nil, List.getLast?_append, hc, Option.some_or, Option.any_some,
      hfolds.isWord_of_mem hword c (List.mem_of_getLast? hc)] at hlast
    cases hlast

theorem HasWord.append_left (h : HasWord word cs') : HasWord word (cs ++ cs') := by
  obtain ⟨front, mid, back, rfl, hfolds, hfront, hback⟩ := h
  refine ⟨cs ++ front, mid, back, by simp only [List.append_assoc], hfolds, ?_, hback⟩
  rcases List.eq_nil_or_concat' front with rfl | ⟨front, c, rfl⟩
  · rw [List.append_nil]
    refine hcut.resolve_right fun hhead => ?_
    obtain ⟨c, mid, rfl⟩ := List.exists_cons_of_ne_nil (hfolds.ne_nil hword)
    rw [List.nil_append, List.cons_append, List.head?_cons, Option.any_some,
      hfolds.isWord_of_mem hword c List.mem_cons_self] at hhead
    cases hhead
  · rw [← List.append_assoc, List.getLast?_concat]
    rwa [List.getLast?_concat] at hfront

/-- **A word stands in one of two parts between which no word goes on.** -/
theorem hasWord_append_iff : HasWord word (cs ++ cs') ↔ HasWord word cs ∨ HasWord word cs' := by
  constructor
  · rintro ⟨front, mid, back, heq, hfolds, hfront, hback⟩
    have hmid := hfolds.isWord_of_mem hword
    rcases List.append_eq_append_iff.mp heq with ⟨a, rfl, ha⟩ | ⟨a, rfl, ha⟩
    · -- the word starts behind the cut
      refine Or.inr ⟨a, mid, back, ha, hfolds, ?_, hback⟩
      rcases List.eq_nil_or_concat' a with rfl | ⟨a, c, rfl⟩
      · rfl
      · rw [← List.append_assoc, List.getLast?_concat] at hfront
        rwa [List.getLast?_concat]
    · rcases List.append_eq_append_iff.mp ha with ⟨b, rfl, rfl⟩ | ⟨b, rfl, rfl⟩
      · -- the word ends before the cut
        refine Or.inl ⟨front, mid, b, rfl, hfolds, hfront, ?_⟩
        cases b with
        | nil => rfl
        | cons c b => exact hback
      · -- the word would go over the cut, unless one of its parts is empty
        rcases List.eq_nil_or_concat' a with rfl | ⟨a, c, rfl⟩
        · exact Or.inr ⟨[], b, back, rfl, hfolds, rfl, hback⟩
        · cases b with
          | nil => exact Or.inl ⟨front, a ++ [c], [], by simp, by simpa using hfolds, hfront, rfl⟩
          | cons d b =>
            have hc := hmid c (by simp)
            have hd := hmid d (by simp)
            rw [← List.append_assoc, List.getLast?_concat, List.cons_append, List.head?_cons,
              Option.any_some, Option.any_some, hc, hd] at hcut
            rcases hcut with hcut | hcut
            · cases hcut
            · cases hcut
  · exact fun h => h.elim (fun h => h.append_right hword hcut) fun h => h.append_left hword hcut

end Cut
end Lettered
end CharClass

namespace Source

theorem hasWord_of_first?_keyword {w : String} (hw : Lettered w.toList)
    (h : ((keyword w).first? (behind before pos front cs)).isSome = true) :
    CharClass.HasWord w.toList cs := by
  obtain ⟨a, b, rfl, -, hmatch⟩ := (Pattern.first?_behind_isSome_iff (onWords_keyword hw)).mp h
  obtain ⟨r, hr⟩ := Option.ne_none_iff_exists'.mp hmatch
  obtain ⟨d, hd, -⟩ := Option.map_eq_some_iff.mp hr
  obtain ⟨hlast, mid, back, rfl, hfolds, hback, -⟩ := (Cursor.wholeWord?_behind_iff hw).mp hd
  rw [Cells.ofChars_append, Cells.lastOr_append] at hlast
  exact ⟨a, mid, back, rfl, hfolds, Cells.getLast?_of_lastOr hlast, hback⟩

/-- **A keyword is found exactly if it stands in the text as a word of its own.** -/
theorem first?_keyword_isSome_iff {w : String} (hw : Lettered w.toList)
    (hbefore : before.any Cell.isWord = false) :
    ((keyword w).first? ⟨before, pos, ofChars cs⟩).isSome = true ↔
      CharClass.HasWord w.toList cs := by
  constructor
  · exact @hasWord_of_first?_keyword before pos [] cs w hw
  · rintro ⟨a, mid, back, rfl, hfolds, ha, hback⟩
    refine (@Pattern.first?_behind_isSome_iff before pos [] _ Unit _ (onWords_keyword hw)).mpr
      ⟨a, mid ++ back, rfl, List.append_ne_nil_of_left_ne_nil (hfolds.ne_nil hw) back, ?_⟩
    rw [keyword, ne_eq, Option.map_eq_none_iff, ← ne_eq, Option.ne_none_iff_exists']
    refine ⟨_, (Cursor.wholeWord?_behind_iff hw).mpr ⟨?_, mid, back, rfl, hfolds, hback, rfl⟩⟩
    exact (Cells.any_lastOr_ofChars hbefore a).trans ha

end Source
end TreeLint
