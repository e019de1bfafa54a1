/-
# Searching a text for the headers of routines

The header of a routine starts with `procedure` or `trigger`, or with an access
keyword and white space before one of the two. So it matches only where one of these
words stands as a word of its own (`Source.exists_of_routineHeader_ne_none`), and a
part of a text without such words is passed over
(`Source.all_routineHeader_append`).

Key definitions: `Source.accessWords`, `Source.IsAccess`.
Key theorems: `Source.exists_of_routineHeader_ne_none`,
`Source.all_routineHeader_append`.
-/
import TreeLint.Proofs.DeclarationParts
import TreeLint.Proofs.WordSearch

namespace TreeLint

open Cells (ofChars lastOr)
open CharClass (Folds HasWord isBlank isWord lower)
open Cursor (behind)

variable {before : Option Cell} {pos : Nat} {front cs rest : List Char}

/-- A text that starts with a run of a class, and is cut where the class ends, is cut behind the
run. -/
theorem exists_append_of_run {q : Char → Bool} {b run back : List Char} (h : b ++ rest = run ++ back)
    (hrun : ∀ c ∈ run, q c = true)
    (hcut : (∃ c ∈ b.getLast?, q c = false) ∨ rest.head?.any q = false) :
    ∃ x, b = run ++ x ∧ back = x ++ rest := by
  rcases List.append_eq_append_iff.mp h with ⟨x, rfl, rfl⟩ | ⟨x, rfl, rfl⟩
  · -- the run goes on behind the cut, unless it ends there
    cases x with
    | nil => exact ⟨[], by simp, by simp⟩
    | cons c x =>
      exfalso
      rcases hcut with ⟨d, hd, hlast⟩ | hhead
      · rw [hrun d (List.mem_append_left _ (List.mem_of_getLast? hd))] at hlast
        cases hlast
      · rw [List.cons_append, List.head?_cons, Option.any_some, hrun c (by simp)] at hhead
        cases hhead
  · exact ⟨x, rfl, rfl⟩

theorem not_isWord_of_head?_append {x : List Char} (h : (x ++ rest).head?.any isBlank = true) :
    x.head?.any isWord = false := by
  cases x with
  | nil => rfl
  | cons c x => exact CharClass.not_isWord_of_isBlank h

namespace Source

/-- The keywords that may stand before `procedure`. -/
def accessWords : List String := ["local", "internal", "protected"]

/-- Nothing, or an access keyword and white space. -/
def IsAccess (cs : List Char) : Prop :=
  cs = [] ∨ ∃ w ∈ accessWords, ∃ mid gap, cs = mid ++ gap ∧ Folds w.toList mid ∧ gap ≠ [] ∧
    ∀ c ∈ gap, isBlank c = true

theorem lettered_accessWords {w : String} (hw : w ∈ accessWords) : Lettered w.toList :=
  lettered_routineWords w (List.mem_append_left ["procedure", "trigger"] hw)

theorem exists_skipAccess (before : Option Cell) (pos : Nat) (front cs : List Char) :
    ∃ access rest, cs = access ++ rest ∧ IsAccess access ∧
      skipAccess (behind before pos front cs) = behind before pos (front ++ access) rest := by
  rw [skipAccess]
  split
  · rename_i d hd
    obtain ⟨w, hw, hd⟩ := List.exists_of_findSome?_eq_some hd
    obtain ⟨e, he, hd⟩ := Option.bind_eq_some_iff.mp hd
    obtain ⟨mid, back, rfl, hfolds, rfl⟩ := Cursor.word?_behind_iff.mp he
    obtain ⟨gap, back, rfl, hne, hgap, -, rfl⟩ :=
      (Cursor.some?_behind_iff (q := isBlank)).mp hd
    refine ⟨mid ++ gap, back, (List.append_assoc _ _ _).symm, Or.inr ⟨w, hw, mid, gap, rfl, hfolds,
      hne, hgap⟩, by rw [List.append_assoc]⟩
  · exact ⟨[], cs, rfl, Or.inl rfl, by rw [List.append_nil]⟩

/-- **Where the header of a routine matches**, its words stand, with no word character before
them. -/
theorem exists_of_routineHeader_ne_none (h : routineHeader (behind before pos front cs) ≠ none) :
    (lastOr before (ofChars front)).any Cell.isWord = false ∧
      ∃ access word back, cs = access ++ (word ++ back) ∧ IsAccess access ∧
        (∃ w ∈ ["procedure", "trigger"], Folds w.toList word) ∧ back.head?.any isBlank = true := by
  obtain ⟨access, tail, rfl, haccess, hskip⟩ := exists_skipAccess before pos front cs
  obtain ⟨r, hr⟩ := Option.ne_none_iff_exists'.mp h
  rw [routineHeader, hskip] at hr
  split at hr
  · rename_i hedge
    obtain ⟨w, hw, d, hd, hblanks⟩ : ∃ w ∈ ["procedure", "trigger"], ∃ d,
        (behind before pos (front ++ access) tail).word? w.toList = some d ∧
          ∃ e, d.blanks? = some e := by
      simp only [Option.bind_eq_bind] at hr
      split at hr
      · rename_i d hd
        simp only [Option.bind_some, Option.bind_eq_some_iff] at hr
        obtain ⟨e, he, -⟩ := hr
        exact ⟨_, List.mem_cons_self, d, hd, e, he⟩
      · rename_i d _ hd
        simp only [Option.bind_some, Option.bind_eq_some_iff] at hr
        obtain ⟨e, he, -⟩ := hr
        exact ⟨_, List.mem_cons_of_mem _ List.mem_cons_self, d, hd, e, he⟩
      · cases hr
    obtain ⟨word, back, rfl, hfolds, rfl⟩ := Cursor.word?_behind_iff.mp hd
    obtain ⟨e, he⟩ := hblanks
    obtain ⟨gap, back, rfl, hne, hgap, -, -⟩ := (Cursor.some?_behind_iff (q := isBlank)).mp he
    have hback : (gap ++ back).head?.any isBlank = true := by
      obtain ⟨c, gap, rfl⟩ := List.exists_cons_of_ne_nil hne
      exact hgap c List.mem_cons_self
    -- the first word is an access keyword or the word itself
    obtain ⟨c, l, hcs, hc⟩ : ∃ c l, access ++ (word ++ (gap ++ back)) = c :: l ∧
        isWord c = true := by
      have hfirst : ∀ {w : String} {mid : List Char}, Lettered w.toList → Folds w.toList mid →
          ∀ more, ∃ c l, mid ++ more = c :: l ∧ isWord c = true := by
        intro w mid hw hfolds more
        obtain ⟨c, mid, rfl⟩ := List.exists_cons_of_ne_nil (hfolds.ne_nil hw)
        exact ⟨c, _, rfl, hfolds.isWord_of_mem hw c List.mem_cons_self⟩
      rcases haccess with rfl | ⟨w', hw', mid, gap', rfl, hfolds', -, -⟩
      · exact hfirst (lettered_routineWords w (by
          rcases List.mem_pair.mp hw with rfl | rfl <;> decide)) hfolds _
      · rw [List.append_assoc]
        exact hfirst (lettered_accessWords hw') hfolds' _
    refine ⟨?_, access, word, gap ++ back, rfl, haccess, ⟨w, hw, hfolds⟩, hback⟩
    have hhead : (behind before pos front (c :: l)).rest.head?.any Cell.isWord = true :=
      (Cells.head?_ofChars_any isWord _).trans hc
    rw [hcs, Cursor.atWordEdge, hhead, behind] at hedge
    simpa using hedge
  · cases hr

/-- **A part of a text without the words of a header is passed over**, if no word goes on behind it,
and access keywords count unless a mark comes next. -/
theorem all_routineHeader_append (hfree : ∀ w ∈ ["procedure", "trigger"], ¬ HasWord w.toList cs)
    (hcut : cs.getLast?.any isWord = false ∨ rest.head?.any isWord = false)
    (haccess : (∀ w ∈ accessWords, ¬ HasWord w.toList cs) ∨
      rest.head?.any (fun c => isWord c || isBlank c) = false) :
    routineHeader.all (behind before pos front (cs ++ rest)) =
      routineHeader.all (behind before pos (front ++ cs) rest) := by
  refine Pattern.all_behind_append onWords_routineHeader fun a b hab hb => ?_
  by_contra hmatch
  obtain ⟨hlast, access, word, back, heq, hIsAccess, ⟨w, hw, hfolds⟩, hback⟩ :=
    exists_of_routineHeader_ne_none hmatch
  have hletters : Lettered w.toList := lettered_routineWords w (by
    rcases List.mem_pair.mp hw with rfl | rfl <;> decide)
  have hfront : a.getLast?.any isWord = false := by
    rw [Cells.ofChars_append, Cells.lastOr_append] at hlast
    exact Cells.getLast?_of_lastOr hlast
  have hcut : (∃ c ∈ b.getLast?, isWord c = false) ∨ rest.head?.any isWord = false := by
    refine hcut.imp_left fun hcs => ?_
    obtain ⟨c, hc⟩ := Option.isSome_iff_exists.mp (List.getLast?_isSome.mpr hb)
    rw [hab, List.getLast?_append, hc] at hcs
    exact ⟨c, hc, hcs⟩
  rcases hIsAccess with rfl | ⟨w', hw', mid, gap, rfl, hfolds', hne, hgap⟩
  · rw [List.nil_append] at heq
    obtain ⟨x, rfl, rfl⟩ := exists_append_of_run heq (hfolds.isWord_of_mem hletters) hcut
    exact hfree w hw ⟨a, word, x, hab, hfolds, hfront, not_isWord_of_head?_append hback⟩
  · rw [List.append_assoc] at heq
    obtain ⟨x, rfl, hx⟩ :=
      exists_append_of_run heq (hfolds'.isWord_of_mem (lettered_accessWords hw')) hcut
    rcases haccess with hnone | hmark
    · refine hnone w' hw' ⟨a, mid, x, hab, hfolds', hfront, @not_isWord_of_head?_append rest x ?_⟩
      obtain ⟨c, gap, rfl⟩ := List.exists_cons_of_ne_nil hne
      rw [← hx]
      exact hgap c List.mem_cons_self
    · -- nothing of the header is behind the mark
      have hends : ∀ q : Char → Bool, (∀ c, q c = true → (isWord c || isBlank c) = true) →
          rest.head?.any q = false := by
        intro q hq
        cases hrest : rest.head? with
        | none => rfl
        | some c =>
          rw [hrest] at hmark
          rw [Option.any_some, Bool.eq_false_iff]
          intro hc
          rw [Option.any_some, hq c hc] at hmark
          cases hmark
      obtain ⟨y, rfl, hy⟩ := exists_append_of_run hx.symm hgap
        (Or.inr (hends isBlank fun c hc => by rw [hc, Bool.or_true]))
      obtain ⟨z, rfl, rfl⟩ := exists_append_of_run hy.symm (hfolds.isWord_of_mem hletters)
        (Or.inr (hends isWord fun c hc => by rw [hc, Bool.true_or]))
      refine hfree w hw ⟨a ++ (mid ++ gap), word, z, by rw [hab]; simp, hfolds, ?_,
        not_isWord_of_head?_append hback⟩
      obtain ⟨c, hc⟩ := Option.isSome_iff_exists.mp (List.getLast?_isSome.mpr hne)
      rw [List.getLast?_append, List.getLast?_append, hc]
      exact CharClass.not_isWord_of_isBlank (hgap c (List.mem_of_getLast? hc))

end Source
end TreeLint
