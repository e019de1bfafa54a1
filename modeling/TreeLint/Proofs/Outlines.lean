/-
# The nodes of an outline

An outline has no positions; `nodesFrom` numbers its nodes in the order of the
walk and records the parent of each. The relation `At` says directly which node
of the outline has which position, with what is below it. It agrees with the
list (`At.getElem?`, `exists_at_of_getElem?`), a position belongs to one node
(`At.unique`), and the nodes whose parent is at a position are those at the top
of what is below it (`At.cases_parent`). So a property of all nodes of an outline
and of what is directly below them can be read off the tree made from it.

Key definitions: `Outline.At`, `Outline.TopAt`, `Outline.All`, `Outline.TopAll`.
Key theorems: `Outline.At.unique`, `Outline.exists_at_of_getElem?`,
`Outline.At.cases_parent`, `Outline.All.of_at`.
-/
import TreeLint.Proofs.Navigation
import TreeLint.Source.Outline

namespace TreeLint
namespace Source
namespace Outline

/-- With the nodes of the outline numbered from `first` on, under `parent`, the node at position
`i` has the parent `p`, the entry `e` and below it the outline `b`. -/
inductive At : Outline → Option Nat → Nat →
    Nat → Option Nat → Entry → Outline → Prop
  | here {e : Entry} {b next : Outline} {parent : Option Nat} {first : Nat} :
      At (.node e b next) parent first first parent e b
  | inside {e e' : Entry} {b b' next : Outline} {parent p : Option Nat} {first i : Nat} :
      At b' (some first) (first + 1) i p e b → At (.node e' b' next) parent first i p e b
  | later {e e' : Entry} {b b' next : Outline} {parent p : Option Nat} {first i : Nat} :
      At next parent (first + 1 + b'.size) i p e b → At (.node e' b' next) parent first i p e b

/-- The node at position `i` is one of those at the top of the outline. -/
inductive TopAt : Outline → Nat → Nat → Entry → Outline → Prop
  | here {e : Entry} {b next : Outline} {first : Nat} : TopAt (.node e b next) first first e b
  | later {e e' : Entry} {b b' next : Outline} {first i : Nat} :
      TopAt next (first + 1 + b'.size) i e b → TopAt (.node e' b' next) first i e b

/-- Every node of the outline, with what is below it, has the property. -/
def All (P : Entry → Outline → Prop) : Outline → Prop
  | .empty => True
  | .node e below next => P e below ∧ below.All P ∧ next.All P

/-- Every node at the top of the outline has the property. -/
def TopAll (P : Entry → Prop) : Outline → Prop
  | .empty => True
  | .node e _ next => P e ∧ next.TopAll P

variable {o o' b b' : Outline} {parent p p' : Option Nat} {first i j : Nat} {e e' : Entry}

/-! ### Positions -/

theorem At.bounds (h : o.At parent first i p e b) : first ≤ i ∧ i + b.size < first + o.size := by
  induction h with
  | here =>
    simp only [size]
    omega
  | inside _ ih | later _ ih =>
    simp only [size]
    omega

/-- **A position belongs to one node.** -/
theorem At.unique (h : o.At parent first i p e b) (h' : o.At parent first i p' e' b') :
    p = p' ∧ e = e' ∧ b = b' := by
  induction h with
  | here =>
    cases h' with
    | here => exact ⟨rfl, rfl, rfl⟩
    | inside h' | later h' =>
      have := h'.bounds
      omega
  | inside h ih =>
    have hin := h.bounds
    cases h' with
    | here => omega
    | inside h' => exact ih h'
    | later h' =>
      have := h'.bounds
      omega
  | later h ih =>
    have hin := h.bounds
    cases h' with
    | here => omega
    | inside h' =>
      have := h'.bounds
      omega
    | later h' => exact ih h'

theorem length_nodesFrom (o : Outline) (parent : Option Nat) (first : Nat) :
    (o.nodesFrom parent first).length = o.size := by
  induction o generalizing parent first with
  | empty => rfl
  | node e below next ihb ihn =>
    rw [nodesFrom, List.length_cons, List.length_append, ihb, ihn, size]
    omega

theorem At.getElem? (h : o.At parent first i p e b) :
    (o.nodesFrom parent first)[i - first]? = some (toNode e p i b) := by
  induction h with
  | here => simp [nodesFrom]
  | @inside e e' b b' next parent p first i h ih =>
    have hin := h.bounds
    obtain ⟨k, rfl⟩ : ∃ k, i = first + 1 + k := Nat.exists_eq_add_of_le hin.1
    rw [show first + 1 + k - first = k + 1 by omega, nodesFrom, List.getElem?_cons_succ,
      List.getElem?_append_left (by rw [length_nodesFrom]; omega)]
    rwa [Nat.add_sub_cancel_left] at ih
  | @later e e' b b' next parent p first i h ih =>
    have hin := h.bounds
    obtain ⟨k, rfl⟩ : ∃ k, i = first + 1 + b'.size + k := Nat.exists_eq_add_of_le hin.1
    rw [show first + 1 + b'.size + k - first = b'.size + k + 1 by omega, nodesFrom,
      List.getElem?_cons_succ, List.getElem?_append_right (by rw [length_nodesFrom]; omega),
      length_nodesFrom, Nat.add_sub_cancel_left]
    rwa [Nat.add_sub_cancel_left] at ih

theorem exists_at_of_getElem? {k : Nat} {n : Node} (h : (o.nodesFrom parent first)[k]? = some n) :
    ∃ p e b, o.At parent first (first + k) p e b ∧ n = toNode e p (first + k) b := by
  induction o generalizing parent first k with
  | empty => cases h
  | node e below next ihb ihn =>
    rw [nodesFrom] at h
    cases k with
    | zero =>
      cases h
      exact ⟨parent, e, below, .here, rfl⟩
    | succ k =>
      rw [List.getElem?_cons_succ] at h
      rcases Nat.lt_or_ge k below.size with hk | hk
      · rw [List.getElem?_append_left (by rwa [length_nodesFrom])] at h
        obtain ⟨p, e', b', hat, hn⟩ := ihb h
        rw [show first + 1 + k = first + (k + 1) by omega] at hat hn
        exact ⟨p, e', b', .inside hat, hn⟩
      · rw [List.getElem?_append_right (by rwa [length_nodesFrom]), length_nodesFrom] at h
        obtain ⟨p, e', b', hat, hn⟩ := ihn h
        rw [show first + 1 + below.size + (k - below.size) = first + (k + 1) by omega] at hat hn
        exact ⟨p, e', b', .later hat, hn⟩

/-! ### Parents -/

/-- **A node with a parent is at the top of what is below its parent**, or at the top of the
outline if the parent is the one the outline is under. -/
theorem At.cases_parent (h : o.At parent first j (some i) e b) :
    (parent = some i ∧ o.TopAt first j e b) ∨
      ∃ p e' b', o.At parent first i p e' b' ∧ b'.TopAt (i + 1) j e b := by
  generalize hq : some i = q at h
  induction h with
  | here =>
    subst hq
    exact Or.inl ⟨rfl, .here⟩
  | inside _ ih =>
    rcases ih hq with ⟨hparent, htop⟩ | ⟨p, e', b', hat, htop⟩
    · obtain rfl := Option.some.inj (hq.trans hparent.symm)
      exact Or.inr ⟨_, _, _, .here, htop⟩
    · exact Or.inr ⟨p, e', b', .inside hat, htop⟩
  | later _ ih =>
    rcases ih hq with ⟨hparent, htop⟩ | ⟨p, e', b', hat, htop⟩
    · exact Or.inl ⟨hparent, .later htop⟩
    · exact Or.inr ⟨p, e', b', .later hat, htop⟩

/-- What is at the top of an outline that is put together is at the top of one of its parts. -/
theorem TopAt.cases_append (h : (o.append o').TopAt first i e b) :
    o.TopAt first i e b ∨ ∃ first', o'.TopAt first' i e b := by
  induction o generalizing first with
  | empty => exact Or.inr ⟨first, h⟩
  | node e' b' next _ ih =>
    cases h with
    | here => exact Or.inl .here
    | later h => exact (ih h).imp_left .later

/-! ### Properties of all nodes -/

theorem All.append {P : Entry → Outline → Prop} (h : o.All P) (h' : o'.All P) :
    (o.append o').All P := by
  induction o with
  | empty => exact h'
  | node e below next _ ih => exact ⟨h.1, h.2.1, ih h.2.2⟩

theorem All.single {P : Entry → Outline → Prop} (he : P e b) (h : b.All P) :
    (Outline.single e b).All P := ⟨he, h, trivial⟩

theorem All.of_at {P : Entry → Outline → Prop} (hall : o.All P)
    (h : o.At parent first i p e b) : P e b := by
  induction h with
  | here => exact hall.1
  | inside _ ih => exact ih hall.2.1
  | later _ ih => exact ih hall.2.2

theorem TopAll.of_topAt {P : Entry → Prop} (hall : o.TopAll P) (h : o.TopAt first i e b) : P e := by
  induction h with
  | here => exact hall.1
  | later _ ih => exact ih hall.2

/-! ### Trees made from outlines -/

section Tree

variable {t : Tree} (ht : t.nodes = o.nodesFrom none 0)
include ht

theorem exists_at_of_node? {n : Node} (hn : t.node? i = some n) :
    ∃ p e b, o.At none 0 i p e b ∧ n = toNode e p i b := by
  rw [Tree.node?, ht] at hn
  simpa using exists_at_of_getElem? hn

theorem At.node?_eq (h : o.At none 0 i p e b) : t.node? i = some (toNode e p i b) := by
  rw [Tree.node?, ht]
  simpa using h.getElem?

/-- The children of a node are the nodes at the top of what is below it. -/
theorem At.of_parent? (h : o.At none 0 i p e b) (hj : t.parent? j = some i) :
    ∃ e' b', b.TopAt (i + 1) j e' b' ∧ o.At none 0 j (some i) e' b' := by
  obtain ⟨n, hn, hparent⟩ := Option.bind_eq_some_iff.mp hj
  obtain ⟨q, e', b', hat, rfl⟩ := exists_at_of_node? ht hn
  cases hparent
  rcases hat.cases_parent with ⟨hnone, -⟩ | ⟨p', e₁, b₁, hat₁, htop⟩
  · cases hnone
  · obtain ⟨-, -, rfl⟩ := h.unique hat₁
    exact ⟨e', b', htop, hat⟩

end Tree

end Outline
end Source
end TreeLint
