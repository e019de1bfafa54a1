/-
# Taking the quotes off twice

Taking the quotes off a name also takes off the white space around it. What stood
between the quotes may itself have white space at its ends or quotes around it, and
a second time takes those off too. A name is compared with its own unquoted form in
that way, so the two are the same name only if nothing is left to take off
(`Name.UnquotesOnce`).

A declared variable keeps its name without quotes. The receiver of a call is looked
up without its quotes and an operand with them, and each comparison takes the quotes
off once more. Both find the same variable exactly for the names that are unquoted
once: in a source, those without white space next to their quotes
(`Source.WrittenName.unquotesOnce_iff`).

Key definitions: `Name.UnquotesOnce`.
Key theorems: `Name.unquoteChars_twice_iff`, `Name.same_unquote_self_iff`,
`Name.same_unquote_iff`.
-/
import Mathlib.Data.List.Find
import TreeLint.Proofs.DeclarationParts
import TreeLint.Proofs.Nesting
import TreeLint.Source.Scope

namespace TreeLint
namespace Name

open CharClass (isBlank)

/-- What stands between the quotes of the text, if it is a quoted name with white space around it,
has no white space at its ends and no quotes around it. -/
def UnquotesOnce (text : String) : Prop :=
  ∀ before inner after : List Char, text.toList = before ++ '"' :: (inner ++ ['"']) ++ after →
    (∀ c ∈ before, isBlank c = true) → (∀ c ∈ after, isBlank c = true) →
    Flush inner ∧ ∀ core, inner ≠ '"' :: (core ++ ['"'])

/-! ### What is left of a text -/

theorem head?_trimStart {cs : List Char} : ∀ c ∈ (trimStart cs).head?, isBlank c = false := by
  intro c hc
  have hnot := List.head?_dropWhile_not isBlank cs
  rw [show (cs.dropWhile isBlank).head? = some c from hc] at hnot
  exact hnot

theorem flush_trim (cs : List Char) : Flush (trim cs) := by
  constructor
  · -- the first character that trimming leaves is the first one behind the white space at the front
    obtain ⟨front, hfront⟩ := List.dropWhile_suffix isBlank (l := (trimStart cs).reverse)
    have hsplit : trimStart cs = trim cs ++ front.reverse := by
      have := congrArg List.reverse hfront
      rw [List.reverse_append, List.reverse_reverse] at this
      exact this.symm
    have hfirst : ∀ c ∈ (trimStart cs).head?, isBlank c = false := head?_trimStart
    intro c hc
    refine hfirst c ?_
    rw [hsplit, List.head?_append, Option.mem_def.mp hc]
    rfl
  · rw [trim, List.getLast?_reverse]
    exact head?_trimStart

theorem flush_quoted (inner : List Char) : Flush ('"' :: (inner ++ ['"'])) := by
  have hquote : Flush ['"'] := by decide
  exact hquote.append (List.cons_ne_nil _ _) hquote (List.cons_ne_nil _ _) inner

theorem isInfix_unquoteChars (cs : List Char) : unquoteChars cs <:+: cs := by
  obtain ⟨before, after, hcs, -, -⟩ := exists_eq_append_trim cs
  have htrim : trim cs <:+: cs := ⟨before, after, hcs.symm⟩
  rw [unquoteChars]
  cases hinner : between? (trim cs) with
  | none => exact htrim
  | some inner =>
    refine List.IsInfix.trans ?_ htrim
    rw [between?_eq_some_iff.mp hinner, Option.getD_some]
    exact ⟨['"'], ['"'], rfl⟩

/-- A text is left as it is if it has no white space at its ends and no quotes around it. -/
theorem unquoteChars_eq_self_iff {cs : List Char} :
    unquoteChars cs = cs ↔ Flush cs ∧ ∀ core, cs ≠ '"' :: (core ++ ['"']) := by
  constructor
  · intro h
    cases hinner : between? (trim cs) with
    | none =>
      rw [unquoteChars, hinner, Option.getD_none] at h
      refine ⟨h ▸ flush_trim cs, fun core hcore => ?_⟩
      rw [h, between?_eq_some_iff.mpr hcore] at hinner
      cases hinner
    | some inner =>
      -- the quotes are missing from what is left
      have htrim := between?_eq_some_iff.mp hinner
      obtain ⟨before, after, hcs, -, -⟩ := exists_eq_append_trim cs
      have hlength := congrArg List.length hcs
      rw [unquoteChars, hinner, Option.getD_some] at h
      rw [htrim, ← h] at hlength
      simp only [List.length_append, List.length_cons, List.length_nil] at hlength
      omega
  · rintro ⟨hflush, hquoted⟩
    have hbetween : between? cs = none :=
      Option.eq_none_iff_forall_ne_some.mpr fun inner hinner =>
        hquoted inner (between?_eq_some_iff.mp hinner)
    rw [unquoteChars, trim_eq_self hflush, hbetween, Option.getD_none]

/-- **A second time nothing is taken off** exactly if the text is unquoted once. -/
theorem unquoteChars_twice_iff {text : String} :
    unquoteChars (unquoteChars text.toList) = unquoteChars text.toList ↔ UnquotesOnce text := by
  rw [unquoteChars_eq_self_iff]
  constructor
  · rintro h before inner after htext hbefore hafter
    have hinner : unquoteChars text.toList = inner := by
      rw [unquoteChars, htext, trim_append hbefore hafter (flush_quoted inner),
        between?_eq_some_iff.mpr rfl, Option.getD_some]
    rwa [hinner] at h
  · intro h
    obtain ⟨before, after, htext, hbefore, hafter⟩ := exists_eq_append_trim text.toList
    rw [unquoteChars]
    cases hinner : between? (trim text.toList) with
    | none =>
      refine ⟨flush_trim _, fun core hcore => ?_⟩
      rw [Option.getD_none] at hcore
      rw [between?_eq_some_iff.mpr hcore] at hinner
      cases hinner
    | some inner =>
      rw [between?_eq_some_iff.mp hinner] at htext
      exact h before inner after htext hbefore hafter

/-! ### Names compared with their unquoted form -/

theorem same_comm (a b : String) : same a b = same b a := by
  rw [Bool.eq_iff_iff, same_eq_true_iff, same_eq_true_iff, eq_comm]

theorem same_self (a : String) : same a a = true := same_eq_true_iff.mpr rfl

/-- **A name is the same as its unquoted form** exactly if it is unquoted once. -/
theorem same_unquote_self_iff {a : String} : same (unquote a) a = true ↔ UnquotesOnce a := by
  rw [same_eq_true_iff, unquote, String.toList_ofList, ← unquoteChars_twice_iff]
  constructor
  · -- lower case keeps the length, so nothing is missing
    intro h
    refine (isInfix_unquoteChars _).eq_of_length ?_
    simpa using congrArg List.length h
  · exact fun h => congrArg (List.map CharClass.lower) h

theorem UnquotesOnce.unquote_unquote {a : String} (h : UnquotesOnce a) :
    unquote (unquote a) = unquote a := by
  rw [unquote, unquote, String.toList_ofList, unquoteChars_twice_iff.mpr h]

end Name

/-! ### Names in a source -/

namespace Source

open Name (UnquotesOnce same unquote)

/-- **A written name is unquoted once** if no white space stands next to its quotes. -/
theorem WrittenName.unquotesOnce_iff (n : WrittenName) :
    UnquotesOnce (String.ofList n.chars) ↔ Name.Flush n.value.toList := by
  have hvalue : Name.unquoteChars (String.ofList n.chars).toList = n.value.toList := by
    have := congrArg String.toList n.unquote_chars
    rwa [Name.unquote, String.toList_ofList, Cells.text, Cells.chars_ofChars] at this
  rw [← Name.unquoteChars_twice_iff, hvalue, Name.unquoteChars_eq_self_iff]
  -- between its quotes a written name has no quote, and a plain name has none at all
  have hquote : '"' ∉ n.value.toList := by
    cases n with
    | plain chars first all_word not_var =>
      rw [value, String.toList_ofList]
      exact fun hmem => absurd (all_word _ hmem) (by decide)
    | quoted content enclosed =>
      rw [value, String.toList_ofList]
      exact fun hmem => (enclosed _ hmem).1 rfl
  refine ⟨And.left, fun h => ⟨h, fun core hcore => hquote ?_⟩⟩
  rw [hcore]
  exact List.mem_cons_self

/-- **In every scope a name and its unquoted form find the same variable** exactly if the name is
unquoted once. -/
theorem Scope.lookup?_unquote_iff {a : String} :
    (∀ s : Scope, s.lookup? (unquote a) = s.lookup? a) ↔ UnquotesOnce a := by
  rw [← Name.same_unquote_self_iff]
  constructor
  · -- the unquoted form finds the variable that is declared by the name
    intro h
    obtain ⟨v, hname⟩ : ∃ v : Variable, v.name = unquote a :=
      ⟨⟨unquote a, 0, .localVariable, { kind := .record }, false⟩, rfl⟩
    have hlookup : ∀ b, Scope.lookup? ⟨0, [v], [], []⟩ b = if same (unquote a) b then some v else none :=
      fun b => hname ▸ List.find?_singleton ..
    have heq := h ⟨0, [v], [], []⟩
    rw [hlookup, hlookup, if_pos (Name.same_self _)] at heq
    by_contra hne
    rw [if_neg hne] at heq
    cases heq
  · intro h s
    refine List.find?_congr fun v _ => ?_
    rw [same, same, (Name.same_unquote_self_iff.mp h).unquote_unquote]

end Source

namespace Name

/-- **Unquoting a name before it is compared** makes no difference exactly for the names that are
unquoted once, and so it is for a name and its unquoted form and for what both find in a scope. -/
theorem same_unquote_iff (a : String) :
    ((∀ b, same (unquote a) b = same a b) ↔ UnquotesOnce a) ∧
      (same a (unquote a) = true ↔ UnquotesOnce a) ∧
      ((∀ s : Source.Scope, s.lookup? (unquote a) = s.lookup? a) ↔ UnquotesOnce a) := by
  refine ⟨⟨fun h => ?_, fun h b => ?_⟩, ?_, Source.Scope.lookup?_unquote_iff⟩
  · rw [← same_unquote_self_iff, h, same_self]
  · rw [same, same, h.unquote_unquote]
  · rw [same_comm, same_unquote_self_iff]

end Name

namespace Source

/-- A variable whose name has white space next to the quotes: a method is called on it, and it is
handed to a procedure. -/
def paddedSource : String :=
  "codeunit 50100 C\n\x7b\n    procedure P()\n    var\n        \" Cust \": Record Customer;\n" ++
    "    begin\n        \" Cust \".Modify();\n        Archive(\" Cust \");\n    end;\n\x7d\n"

/-- **A name with white space next to its quotes** is not the same as its unquoted form: the call's
receiver refers to the variable, and the operand, written in the same way, to none. -/
theorem padded_name_not_same :
    Name.same "\" Cust \"" (Name.unquote "\" Cust \"") = false ∧
      ∃ tree, resolve "a.al" paddedSource = .ok tree ∧
      (tree.node? 5).map (fun n => (n.kind, n.symbol)) = some (.localReference, some 2) ∧
      (tree.node? 8).map (fun n => (n.kind, n.symbol)) = some (.literal, none) := by
  have h : (resolve "a.al" paddedSource).toOption.any (fun tree =>
      (tree.node? 5).map (fun n => (n.kind, n.symbol)) = some (.localReference, some 2) &&
      (tree.node? 8).map (fun n => (n.kind, n.symbol)) = some (.literal, none)) = true := by
    decide +kernel
  obtain ⟨tree, htree, h⟩ := exists_ok_of_any h
  obtain ⟨hreceiver, hoperand⟩ := Bool.and_eq_true_iff.mp h
  exact ⟨by decide, tree, htree, of_decide_eq_true hreceiver, of_decide_eq_true hoperand⟩

end Source
end TreeLint
