/-
# What the comparison of names allows

Names are compared after white space and one pair of quotes were taken off, and
without regard to ASCII case. Said without taking anything off: a text spells a
name when it is that name in some ASCII case, as it is or between quotes, with
white space around it (`Spells`). For a name that is written plainly itself the
two agree (`same_iff_spells`).

Key definitions: `Name.Flush`, `Name.IsPlain`, `Name.Spells`.
Key theorems: `Name.trim_append`, `Name.same_iff_spells`.
-/
import Mathlib.Data.List.TakeWhile
import TreeLint.Text.Name

namespace TreeLint

namespace CharClass

/-- Lower case leaves all but the capital letters as they are, and gives small letters for those. -/
theorem lower_cases (c : Char) :
    lower c = c ∨ (65 ≤ c.toNat ∧ c.toNat ≤ 90) ∧ (lower c).toNat = c.toNat + 32 := by
  unfold lower
  split
  · rename_i h
    have hle : 65 ≤ c.toNat ∧ c.toNat ≤ 90 := h
    have hvalid : (c.toNat + 32).isValidChar := Or.inl (by omega)
    rw [Char.ofNat, dif_pos hvalid]
    exact Or.inr ⟨hle, rfl⟩
  · exact Or.inl rfl

theorem isBlank_lower (c : Char) : isBlank (lower c) = isBlank c := by
  rcases lower_cases c with h | ⟨hle, h⟩
  · rw [h]
  · simp only [isBlank, h]
    grind

theorem lower_eq_quote_iff {c : Char} : lower c = '"' ↔ c = '"' := by
  rcases lower_cases c with h | ⟨hle, h⟩
  · rw [h]
  · have hquote : '"'.toNat = 34 := rfl
    constructor
    · intro heq
      rw [heq] at h
      omega
    · rintro rfl
      omega

end CharClass

namespace Name

open CharClass (isBlank isBlank_lower lower_eq_quote_iff)

/-! ### White space around a text -/

/-- Neither the first nor the last character is white space. -/
def Flush (cs : List Char) : Prop :=
  (∀ c ∈ cs.head?, isBlank c = false) ∧ ∀ c ∈ cs.getLast?, isBlank c = false

theorem flush_iff {cs : List Char} :
    Flush cs ↔ (cs.head?.all (!isBlank ·) && cs.getLast?.all (!isBlank ·)) = true := by
  cases h : cs.head? <;> cases h' : cs.getLast? <;> simp [Flush, h, h']

instance (cs : List Char) : Decidable (Flush cs) := decidable_of_iff' _ flush_iff

/-- White space at the front is dropped, up to a character that is none. -/
theorem trimStart_append {before cs : List Char} (hbefore : ∀ c ∈ before, isBlank c = true)
    (hcs : ∀ c ∈ cs.head?, isBlank c = false) : trimStart (before ++ cs) = cs := by
  rw [trimStart, List.dropWhile_append_of_pos hbefore]
  cases cs with
  | nil => rfl
  | cons c cs => exact List.dropWhile_cons_of_neg (by simpa using hcs c rfl)

/-- **Trimming takes off the white space around a text and nothing else.** -/
theorem trim_append {before core after : List Char} (hbefore : ∀ c ∈ before, isBlank c = true)
    (hafter : ∀ c ∈ after, isBlank c = true) (hcore : Flush core) :
    trim (before ++ core ++ after) = core := by
  cases core with
  | nil =>
    have hall : ∀ c ∈ before ++ after, isBlank c = true := by
      intro c hc
      exact (List.mem_append.mp hc).elim (hbefore c) (hafter c)
    have hnil : trimStart (before ++ after) = [] := by
      simpa using @trimStart_append (before ++ after) [] hall (by simp)
    rw [trim, List.append_nil, hnil]
    rfl
  | cons c core =>
    have hfront : trimStart (before ++ (c :: core) ++ after) = c :: core ++ after := by
      rw [List.append_assoc]
      exact trimStart_append hbefore (by simpa using hcore.1 c rfl)
    have hback : trimStart (c :: core ++ after).reverse = (c :: core).reverse := by
      rw [List.reverse_append]
      refine trimStart_append (by simpa using hafter) ?_
      rw [List.head?_reverse]
      exact hcore.2
    rw [trim, hfront, hback, List.reverse_reverse]

theorem trim_eq_self {cs : List Char} (h : Flush cs) : trim cs = cs := by
  simpa using trim_append (List.forall_mem_nil _) (List.forall_mem_nil _) h

/-- A text is what trimming leaves, with white space around it. -/
theorem exists_eq_append_trim (cs : List Char) : ∃ before after,
    cs = before ++ trim cs ++ after ∧ (∀ c ∈ before, isBlank c = true) ∧
      ∀ c ∈ after, isBlank c = true := by
  have hblank : ∀ cs : List Char, ∀ c ∈ cs.takeWhile isBlank, isBlank c = true :=
    fun cs c hc => List.mem_takeWhile_imp hc
  refine ⟨cs.takeWhile isBlank, ((trimStart cs).reverse.takeWhile isBlank).reverse, ?_,
    hblank cs, fun c hc => hblank _ c (List.mem_reverse.mp hc)⟩
  have hfront : cs = cs.takeWhile isBlank ++ trimStart cs := List.takeWhile_append_dropWhile.symm
  have hback : (trimStart cs).reverse =
      (trimStart cs).reverse.takeWhile isBlank ++ trimStart (trimStart cs).reverse :=
    List.takeWhile_append_dropWhile.symm
  calc cs = cs.takeWhile isBlank ++ (trimStart cs).reverse.reverse := by
        rw [List.reverse_reverse, ← hfront]
    _ = cs.takeWhile isBlank ++
        (trim cs ++ ((trimStart cs).reverse.takeWhile isBlank).reverse) := by
        rw [hback, List.reverse_append, trim, ← hback]
    _ = _ := (List.append_assoc ..).symm

theorem flush_map_lower {cs : List Char} : Flush (cs.map CharClass.lower) ↔ Flush cs := by
  simp [Flush, isBlank_lower]

/-! ### Spelling a name -/

/-- A name that is written without quotes and without white space around it. -/
def IsPlain (name : String) : Prop := Flush name.toList ∧ name.toList.head? ≠ some '"'

instance (name : String) : Decidable (IsPlain name) :=
  inferInstanceAs (Decidable (Flush name.toList ∧ name.toList.head? ≠ some '"'))

/-- The text is the name in some ASCII case, as it is or between quotes, with white space around
it. -/
def Spells (text name : String) : Prop :=
  ∃ before core after : List Char, text.toList = before ++ core ++ after ∧
    (∀ c ∈ before, isBlank c = true) ∧ (∀ c ∈ after, isBlank c = true) ∧
    (core.map CharClass.lower = name.toList.map CharClass.lower ∨
      ∃ inner, core = '"' :: (inner ++ ['"']) ∧
        inner.map CharClass.lower = name.toList.map CharClass.lower)

theorem between?_eq_some_iff {cs inner : List Char} :
    between? cs = some inner ↔ cs = '"' :: (inner ++ ['"']) := by
  constructor
  · intro h
    unfold between? at h
    split at h
    · rename_i rest
      split at h
      · rename_i reversed hrest
        cases h
        rw [← List.reverse_reverse rest, hrest, List.reverse_cons]
      · cases h
    · cases h
  · rintro rfl
    simp [between?]

theorem between?_eq_none_of_head? {cs : List Char} (h : cs.head? ≠ some '"') :
    between? cs = none := by
  rw [Option.eq_none_iff_forall_ne_some]
  intro inner hinner
  rw [between?_eq_some_iff.mp hinner] at h
  exact h rfl

theorem IsPlain.unquoteChars_eq {name : String} (h : IsPlain name) :
    unquoteChars name.toList = name.toList := by
  rw [unquoteChars, trim_eq_self h.1, between?_eq_none_of_head? h.2, Option.getD_none]

theorem same_eq_true_iff {a b : String} : same a b = true ↔
    (unquoteChars a.toList).map CharClass.lower = (unquoteChars b.toList).map CharClass.lower := by
  simp [same, eqIgnoreCase, unquote]

/-- **A text is the same name as a plain one exactly when it spells it.** -/
theorem same_iff_spells {text name : String} (hname : IsPlain name) :
    same text name = true ↔ Spells text name := by
  rw [same_eq_true_iff, hname.unquoteChars_eq]
  constructor
  · intro h
    obtain ⟨before, after, htext, hbefore, hafter⟩ := exists_eq_append_trim text.toList
    refine ⟨before, trim text.toList, after, htext, hbefore, hafter, ?_⟩
    rw [unquoteChars] at h
    cases hb : between? (trim text.toList) with
    | none =>
      rw [hb, Option.getD_none] at h
      exact Or.inl h
    | some inner =>
      rw [hb, Option.getD_some] at h
      exact Or.inr ⟨inner, between?_eq_some_iff.mp hb, h⟩
  · rintro ⟨before, core, after, htext, hbefore, hafter, hcore⟩
    rcases hcore with hcore | ⟨inner, rfl, hinner⟩
    · have hflush : Flush core := by
        rw [← flush_map_lower, hcore, flush_map_lower]
        exact hname.1
      have hhead : core.head? ≠ some '"' := by
        -- the first characters agree up to case, and a quote has no case
        have hheads : core.head?.map CharClass.lower = name.toList.head?.map CharClass.lower := by
          rw [← List.head?_map, hcore, List.head?_map]
        intro hquote
        rw [hquote, Option.map_some, eq_comm, Option.map_eq_some_iff] at hheads
        obtain ⟨c, hc, hlower⟩ := hheads
        exact hname.2 (hc.trans (congrArg some (lower_eq_quote_iff.mp hlower)))
      rw [unquoteChars, htext, trim_append hbefore hafter hflush, between?_eq_none_of_head? hhead,
        Option.getD_none, hcore]
    · have hflush : Flush ('"' :: (inner ++ ['"'])) := by
        constructor
        · simp [isBlank]
        · rw [List.getLast?_cons, List.getLast?_append]
          simp [isBlank]
      rw [unquoteChars, htext, trim_append hbefore hafter hflush, between?_eq_some_iff.mpr rfl,
        Option.getD_some, hinner]

example : Spells " \"runTRIGGER\"\t" "RunTrigger" ∧ ¬ Spells "\" RunTrigger\"" "RunTrigger" := by
  have hplain : IsPlain "RunTrigger" := by decide
  rw [← same_iff_spells hplain, ← same_iff_spells hplain]
  decide

end Name
end TreeLint
