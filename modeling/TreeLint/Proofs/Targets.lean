/-
# What a call can resolve to

A call without a receiver is one of a procedure of the object, of a global method,
of a method of the implicit record, or of a method that is not known further, tried
in this order. A call with a receiver is one on a variable, if the name is that of
one, or else on a data type or on something that is not known further.

The cases are stated once (`Source.Scope.Resolves`); what holds of all targets, and
when a target is of a certain kind, is read off them.

Key definitions: `Source.Call.Unclaimed`, `Source.Scope.Resolves`.
Key theorems: `Source.resolves_target`, `Source.target_absent_iff`,
`Source.target_implicit_iff`, `Source.target_declared_iff`.
-/
import TreeLint.Source.Scope

namespace TreeLint
namespace Source

variable {s : Scope} {t : Text} {call : Call} {v : Variable} {r place : Extent}

/-- A call without a receiver that is not one of a procedure of the object. -/
structure Call.Unclaimed (call : Call) (procedures : List String) : Prop where
  receiver : call.receiver = none
  procedures : ∀ p ∈ procedures, Name.same p call.method = false

/-- What a call resolves to, case by case. -/
inductive Scope.Resolves (s : Scope) (t : Text) (call : Call) : Target → Prop
  | ownProcedure : call.receiver = none → (∃ p ∈ s.procedures, Name.same p call.method = true) →
      Resolves s t call (.user .absent)
  | globalMethod {ps : List String} : call.Unclaimed s.procedures →
      globalMethods.lookup (Name.lower call.method) = some ps → Resolves s t call (.builtIn ps .absent)
  | recordMethod {ps : List String} {v : Variable} : call.Unclaimed s.procedures →
      globalMethods.lookup (Name.lower call.method) = none → s.implicitRecord? = some v →
      recordMethods.lookup (Name.lower call.method) = some ps →
      Resolves s t call (.builtIn ps (.implicit v))
  | unknownMethod : call.Unclaimed s.procedures →
      globalMethods.lookup (Name.lower call.method) = none →
      (s.implicitRecord? = none ∨ recordMethods.lookup (Name.lower call.method) = none) →
      Resolves s t call (.user .absent)
  | onVariable {r : Extent} {v : Variable} {kind : MethodKind} {ps : List String} :
      call.receiver = some r → s.lookup? (t.name r) = some v →
      Resolves s t call ⟨kind, ps, .declared v r⟩
  | onType {r : Extent} {type : TypeKind} {ps : List String} : call.receiver = some r →
      s.lookup? (t.name r) = none → staticReceiver? (t.name r) = some type →
      Resolves s t call (.builtIn ps (.static type r))
  | onUnknown {r : Extent} : call.receiver = some r → s.lookup? (t.name r) = none →
      Resolves s t call (.user (.unknown r))

/-- **These are all the cases.** -/
theorem resolves_target (s : Scope) (t : Text) (call : Call) :
    s.Resolves t call (s.target t call) := by
  unfold Scope.target
  split
  · rename_i hreceiver
    unfold Scope.plainTarget
    split
    · rename_i hown
      exact .ownProcedure hreceiver (by simpa using hown)
    · rename_i hown
      have hunclaimed : call.Unclaimed s.procedures := ⟨hreceiver, by simpa using hown⟩
      split
      · rename_i ps hglobal
        exact .globalMethod hunclaimed hglobal
      · rename_i hglobal
        split
        · rename_i v ps hrecord hmethod
          exact .recordMethod hunclaimed hglobal hrecord hmethod
        · rename_i hnone
          refine .unknownMethod hunclaimed hglobal ?_
          cases hrecord : s.implicitRecord? with
          | none => exact Or.inl rfl
          | some v =>
            cases hmethod : recordMethods.lookup (Name.lower call.method) with
            | none => exact Or.inr rfl
            | some ps => exact absurd hmethod (hnone v ps hrecord)
  · rename_i r hreceiver
    split
    · rename_i v hlookup
      unfold Scope.variableTarget
      split
      · split <;> exact .onVariable hreceiver hlookup
      · exact .onVariable hreceiver hlookup
      · exact .onVariable hreceiver hlookup
    · rename_i hlookup
      unfold Scope.staticTarget
      split
      · rename_i hstatic
        exact .onType hreceiver hlookup hstatic
      · rename_i hstatic
        exact .onType hreceiver hlookup hstatic
      · exact .onUnknown hreceiver hlookup

theorem Call.Unclaimed.not_exists {procedures : List String} (h : call.Unclaimed procedures) :
    ¬ ∃ p ∈ procedures, Name.same p call.method = true := by
  intro ⟨p, hp, hsame⟩
  rw [h.procedures p hp] at hsame
  cases hsame

/-! ### When a target is of a kind -/

theorem target_absent_iff :
    ((s.target t call).kind = .builtInMethod ∧ (s.target t call).receiver = .absent) ↔
      call.Unclaimed s.procedures ∧
        (globalMethods.lookup (Name.lower call.method)).isSome = true := by
  have hcases := resolves_target s t call
  generalize s.target t call = target at hcases
  cases hcases with
  | ownProcedure _ hown =>
    simp only [Target.user, reduceCtorEq, false_and, false_iff]
    exact fun h => h.1.not_exists hown
  | globalMethod hunclaimed hglobal => simp [Target.builtIn, hunclaimed, hglobal]
  | recordMethod _ hglobal _ _ => simp [Target.builtIn, hglobal]
  | unknownMethod _ hglobal _ => simp [Target.user, hglobal]
  | onVariable hreceiver _ | onType hreceiver _ _ | onUnknown hreceiver _ =>
    simp only [Target.builtIn, Target.user, reduceCtorEq, and_false, false_iff]
    intro h
    rw [h.1.receiver] at hreceiver
    cases hreceiver

/-- **A target on the implicit record is a method of records** that is no global method. -/
theorem target_implicit_iff :
    (s.target t call).receiver = .implicit v ↔ call.Unclaimed s.procedures ∧
      globalMethods.lookup (Name.lower call.method) = none ∧ s.implicitRecord? = some v ∧
      (recordMethods.lookup (Name.lower call.method)).isSome = true := by
  have hcases := resolves_target s t call
  generalize s.target t call = target at hcases
  cases hcases with
  | ownProcedure _ hown =>
    simp only [Target.user, reduceCtorEq, false_iff]
    exact fun h => h.1.not_exists hown
  | globalMethod _ hglobal => simp [Target.builtIn, hglobal]
  | recordMethod hunclaimed hglobal hrecord hmethod =>
    simp [Target.builtIn, hunclaimed, hglobal, hrecord, hmethod]
  | unknownMethod _ _ hnone =>
    simp only [Target.user, reduceCtorEq, false_iff]
    rintro ⟨-, -, hrecord, hmethod⟩
    rcases hnone with hnone | hnone
    · rw [hnone] at hrecord
      cases hrecord
    · rw [hnone] at hmethod
      cases hmethod
  | onVariable hreceiver _ | onType hreceiver _ _ | onUnknown hreceiver _ =>
    simp only [Target.builtIn, Target.user, reduceCtorEq, false_iff]
    intro h
    rw [h.1.receiver] at hreceiver
    cases hreceiver

theorem target_declared_iff :
    (s.target t call).receiver = .declared v r ↔
      call.receiver = some r ∧ s.lookup? (t.name r) = some v := by
  have hcases := resolves_target s t call
  generalize s.target t call = target at hcases
  have hnone : ∀ {receiver : Receiver}, call.receiver = none → receiver ≠ .declared v r →
      (receiver = .declared v r ↔ call.receiver = some r ∧ s.lookup? (t.name r) = some v) := by
    intro receiver hreceiver hne
    simp [hreceiver, hne]
  cases hcases with
  | ownProcedure hreceiver _ => exact hnone hreceiver nofun
  | globalMethod hunclaimed _ => exact hnone hunclaimed.receiver nofun
  | recordMethod hunclaimed _ _ _ => exact hnone hunclaimed.receiver nofun
  | unknownMethod hunclaimed _ _ => exact hnone hunclaimed.receiver nofun
  | onVariable hreceiver hlookup =>
    simp only [Receiver.declared.injEq, hreceiver, Option.some.injEq]
    constructor
    · rintro ⟨rfl, rfl⟩
      exact ⟨rfl, hlookup⟩
    · rintro ⟨rfl, hlookup'⟩
      exact ⟨Option.some.inj (hlookup.symm.trans hlookup'), rfl⟩
  | onType hreceiver hlookup _ | onUnknown hreceiver hlookup =>
    simp only [Target.builtIn, Target.user, reduceCtorEq, hreceiver, Option.some.injEq, false_iff]
    rintro ⟨rfl, hsome⟩
    rw [hlookup] at hsome
    cases hsome

end Source
end TreeLint
