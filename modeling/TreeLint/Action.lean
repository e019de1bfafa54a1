/-
# Actions on a state that may fail

An action looks at a state, writes to it and may fail. Failing undoes nothing:
what was written before stays written. So an action that makes all its checks
before it writes leaves the state as it is when it fails, and another one need not.

Key definitions: `Action`, `Action.runFrom`, `Action.result`, `Action.leaves`.
-/

namespace TreeLint

/-- An action on a state that answers or fails. -/
abbrev Action (ε σ α : Type) := ExceptT ε (StateM σ) α

namespace Action

variable {ε σ α : Type}

/-- What an action answers from a state, and the state after it. -/
def runFrom (a : Action ε σ α) (s : σ) : Except ε α × σ := a.run.run s

/-- The state after an action that does not fail. -/
def result (a : Action ε σ α) (s : σ) : Except ε σ :=
  match a.runFrom s with
  | (.ok _, s') => .ok s'
  | (.error e, _) => .error e

/-- The state after an action, whether it fails or not. -/
def leaves (a : Action ε σ α) (s : σ) : σ := (a.runFrom s).2

@[simp] theorem runFrom_pure (x : α) (s : σ) : (pure x : Action ε σ α).runFrom s = (.ok x, s) := rfl

@[simp] theorem runFrom_throw (e : ε) (s : σ) :
    (throw e : Action ε σ α).runFrom s = (.error e, s) := rfl

@[simp] theorem runFrom_modify (f : σ → σ) (s : σ) :
    (modify f : Action ε σ PUnit).runFrom s = (.ok ⟨⟩, f s) := rfl

@[simp] theorem runFrom_get_bind (f : σ → Action ε σ α) (s : σ) :
    (get >>= f).runFrom s = (f s).runFrom s := rfl

@[simp] theorem runFrom_modify_bind (g : σ → σ) (f : PUnit → Action ε σ α) (s : σ) :
    (modify g >>= f).runFrom s = (f ⟨⟩).runFrom (g s) := rfl

/-- What follows an action that fails is not done. -/
theorem runFrom_bind {β : Type} (a : Action ε σ β) (f : β → Action ε σ α) (s : σ) :
    (a >>= f).runFrom s = match a.runFrom s with
      | (.ok x, s') => (f x).runFrom s'
      | (.error e, s') => (.error e, s') := by
  unfold runFrom
  rw [ExceptT.run_bind, StateT.run_bind]
  rcases a.run.run s with ⟨answer, s'⟩
  cases answer with
  | ok x => rfl
  | error e => rfl

theorem leaves_of_result_ok {a : Action ε σ α} {s s' : σ} (h : a.result s = .ok s') :
    a.leaves s = s' := by
  unfold result at h
  unfold leaves
  generalize a.runFrom s = r at h ⊢
  obtain ⟨answer, left⟩ := r
  cases answer with
  | ok x => exact Except.ok.inj h
  | error e => cases h

end Action
end TreeLint
