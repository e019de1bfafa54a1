/-
# Which documents become trees

A document that is not too large becomes a tree exactly when it is well formed:
every reference exists, a parent comes before its child, and containment of
symbols never leads back to where it started. The test for the last looks only at
the length of a chain: a chain with more steps than there are symbols meets one of
them twice, so it runs in a circle, and a chain that runs in a circle never ends.

Key definitions: `Document.ContainedIn`, `Document.WellFormed`, `Document.climb`.
Key theorems: `Document.exists_cycle_of_climb`, `Document.defect?_eq_none_iff`,
`Tree.ofDocument_accepts_exactly`.
-/
import Mathlib.Data.Finset.Card
import Mathlib.Data.Fintype.Pigeonhole
import Mathlib.Logic.Relation
import TreeLint.Semantic.Navigate

namespace TreeLint
namespace Document

/-- The symbol at `s` is declared directly in the symbol at `c`. -/
def ContainedIn (d : Document) (s c : SymbolId) : Prop := d.containing? s = some c

/-- Every reference of the document leads to something, a parent comes before its child, and no
symbol is found again by following containment. -/
structure WellFormed (d : Document) : Prop where
  containing_lt : ∀ (s : SymbolId) (x : Symbol) (c : SymbolId),
    d.symbols[s]? = some x → x.containing = some c → c < d.symbols.length
  acyclic : ∀ s, ¬ Relation.TransGen d.ContainedIn s s
  parent_lt : ∀ (i : NodeId) (n : Node) (p : NodeId),
    d.nodes[i]? = some n → n.parent = some p → p < i
  symbol_lt : ∀ (i : NodeId) (n : Node) (s : SymbolId),
    d.nodes[i]? = some n → n.symbol = some s ∨ n.containingSymbol = some s → s < d.symbols.length
  value_lt : ∀ (i : NodeId) (n : Node) (call : Invocation) (a : BoundArgument) (v : NodeId),
    d.nodes[i]? = some n → n.invocation = some call → a ∈ call.arguments → a.value = some v →
      v < d.nodes.length

/-! ### Chains of containment -/

/-- The symbol that is met after some steps of containment. -/
def climb (d : Document) : Nat → SymbolId → Option SymbolId
  | 0, s => some s
  | k + 1, s => (d.containing? s).bind (climb d k)

variable {d : Document}

theorem containing?_eq {s : SymbolId} {x : Symbol} (h : d.symbols[s]? = some x) :
    d.containing? s = x.containing := by
  simp [containing?, h]

theorem lt_of_containing? {s c : SymbolId} (h : d.containing? s = some c) :
    s < d.symbols.length := by
  unfold containing? at h
  split at h
  · rename_i x hx
    exact (List.getElem?_eq_some_iff.mp hx).1
  · cases h

theorem climb_one (s : SymbolId) : d.climb 1 s = d.containing? s := by
  simp [climb]

theorem climb_add (k : Nat) : ∀ (j : Nat) (s : SymbolId),
    d.climb (j + k) s = (d.climb j s).bind (d.climb k)
  | 0, s => by rw [Nat.zero_add]; rfl
  | j + 1, s => by
    rw [Nat.succ_add_eq_add_succ, Nat.add_succ]
    simp only [climb, Option.bind_assoc]
    congr 1
    funext c
    exact climb_add k j c

/-- A chain passes through every earlier step. -/
theorem climb_of_le {j k : Nat} {s v : SymbolId} (hjk : j ≤ k) (h : d.climb k s = some v) :
    ∃ u, d.climb j s = some u ∧ d.climb (k - j) u = some v := by
  have hk : j + (k - j) = k := by omega
  rw [← hk, climb_add, Option.bind_eq_some_iff] at h
  exact h

/-- The chain ends within some steps exactly when there is nothing after so many. -/
theorem chainEnds_eq : ∀ (k : Nat) (s : SymbolId),
    d.chainEnds k (some s) = (d.climb k s).isNone
  | 0, _ => rfl
  | k + 1, s => by
    rw [chainEnds, climb]
    cases h : d.containing? s with
    | none => simp [chainEnds]
    | some c => exact chainEnds_eq k c

theorem transGen_of_climb : ∀ {k : Nat} {s v : SymbolId}, d.climb (k + 1) s = some v →
    Relation.TransGen d.ContainedIn s v
  | 0, s, v, h => by
    obtain ⟨c, hc, hv⟩ := Option.bind_eq_some_iff.mp h
    cases hv
    exact .single hc
  | k + 1, s, v, h => by
    obtain ⟨c, hc, hv⟩ := Option.bind_eq_some_iff.mp h
    exact .head hc (transGen_of_climb hv)

theorem reflTransGen_of_climb : ∀ {k : Nat} {s v : SymbolId}, d.climb k s = some v →
    Relation.ReflTransGen d.ContainedIn s v
  | 0, _, _, h => Option.some.inj h ▸ .refl
  | _ + 1, _, _, h => (transGen_of_climb h).to_reflTransGen

theorem climb_of_transGen {s v : SymbolId} (h : Relation.TransGen d.ContainedIn s v) :
    ∃ k, d.climb (k + 1) s = some v := by
  induction h with
  | single hc => exact ⟨0, (climb_one _).trans hc⟩
  | tail _ hc ih =>
    obtain ⟨k, hk⟩ := ih
    refine ⟨k + 1, ?_⟩
    rw [climb_add 1 (k + 1), hk, Option.bind_some, climb_one]
    exact hc

/-- **A long chain runs in a circle.** A chain with as many steps as there are symbols holds one
symbol more than that, so they cannot all be different. -/
theorem exists_cycle_of_climb {s v : SymbolId} (h : d.climb d.symbols.length s = some v)
    (hv : v < d.symbols.length) :
    ∃ u, Relation.ReflTransGen d.ContainedIn s u ∧ Relation.TransGen d.ContainedIn u u := by
  have hon : ∀ j : Fin (d.symbols.length + 1), ∃ u : Fin d.symbols.length,
      d.climb j s = some u.val := by
    intro j
    obtain ⟨u, hu, hrest⟩ := climb_of_le (Nat.le_of_lt_succ j.isLt) h
    -- a symbol before the last is contained in something, so it exists
    by_cases hlast : j.val = d.symbols.length
    · rw [hlast, Nat.sub_self] at hrest
      exact ⟨⟨u, Option.some.inj hrest ▸ hv⟩, hu⟩
    · obtain ⟨c, hc, -⟩ := climb_of_le (show 1 ≤ d.symbols.length - j by omega) hrest
      rw [climb_one] at hc
      exact ⟨⟨u, lt_of_containing? hc⟩, hu⟩
  choose on hon using hon
  obtain ⟨i, j, hne, heq⟩ := Fintype.exists_ne_map_eq_of_card_lt on (by simp)
  have hcircle : ∀ i j : Fin (d.symbols.length + 1), i < j → on i = on j →
      ∃ u, Relation.ReflTransGen d.ContainedIn s u ∧ Relation.TransGen d.ContainedIn u u := by
    intro i j hlt heq
    obtain ⟨u, hu, hrest⟩ := climb_of_le (Nat.le_of_lt hlt) (hon j)
    have hui : u = on i := Option.some.inj (hu.symm.trans (hon i))
    obtain ⟨k, hk⟩ : ∃ k, j.val - i.val = k + 1 := ⟨j.val - i.val - 1, by omega⟩
    rw [hk, hui] at hrest
    refine ⟨(on i).val, reflTransGen_of_climb (hon i), transGen_of_climb (hrest.trans ?_)⟩
    rw [heq]
  rcases lt_or_gt_of_ne hne with hlt | hgt
  · exact hcircle i j hlt heq
  · exact hcircle j i hgt heq.symm

/-- **A chain that runs in a circle never ends.** -/
theorem climb_ne_none_of_cycle {u : SymbolId} (h : Relation.TransGen d.ContainedIn u u) (k : Nat) :
    d.climb k u ≠ none := by
  obtain ⟨j, hj⟩ := climb_of_transGen h
  have hround : ∀ m, d.climb (m * (j + 1)) u = some u := by
    intro m
    induction m with
    | zero => simp [climb]
    | succ m ih => rw [Nat.succ_mul, climb_add, ih, Option.bind_some, hj]
  have hle : k ≤ k * (j + 1) := Nat.le_mul_of_pos_right k (Nat.succ_pos j)
  obtain ⟨v, hv, -⟩ := climb_of_le hle (hround k)
  rw [hv]
  simp

/-! ### The checks, one by one -/

theorem rangeDefect?_eq_none_iff {x : Symbol} {i : SymbolId} :
    d.rangeDefect? (x, i) = none ↔ ∀ c, x.containing = some c → c < d.symbols.length := by
  cases h : x.containing with
  | none => simp [rangeDefect?, h]
  | some c => simp [rangeDefect?, h]

theorem cycleDefect?_eq_none_iff {x : Symbol} {i : SymbolId} (hx : d.symbols[i]? = some x) :
    d.cycleDefect? (x, i) = none ↔ d.climb (d.symbols.length + 1) i = none := by
  rw [climb, containing?_eq hx, cycleDefect?]
  cases h : x.containing with
  | none => simp [chainEnds]
  | some c => simp [chainEnds_eq]

/-- The chains from all symbols end in time exactly when no chain runs in a circle. -/
theorem climb_eq_none_iff_acyclic :
    (∀ i x, d.symbols[i]? = some x → d.climb (d.symbols.length + 1) i = none) ↔
      ∀ s, ¬ Relation.TransGen d.ContainedIn s s := by
  constructor
  · intro hend s hcycle
    obtain ⟨k, hk⟩ := climb_of_transGen hcycle
    obtain ⟨c, hc, -⟩ := Option.bind_eq_some_iff.mp hk
    obtain ⟨x, hx⟩ : ∃ x, d.symbols[s]? = some x :=
      ⟨_, List.getElem?_eq_getElem (lt_of_containing? hc)⟩
    exact climb_ne_none_of_cycle hcycle _ (hend s x hx)
  · intro hacyclic i x _
    by_contra hne
    obtain ⟨v, hv⟩ := Option.ne_none_iff_exists'.mp hne
    obtain ⟨w, hw, hlast⟩ := climb_of_le (Nat.le_succ d.symbols.length) hv
    rw [Nat.succ_sub (Nat.le_refl _), Nat.sub_self, climb_one] at hlast
    obtain ⟨u, -, hu⟩ := exists_cycle_of_climb hw (lt_of_containing? hlast)
    exact hacyclic u hu

theorem symbolDefect?_eq_none_iff {i : NodeId} {refs : List (Option SymbolId)} :
    d.symbolDefect? i refs = none ↔ ∀ s, some s ∈ refs → s < d.symbols.length := by
  rw [symbolDefect?, List.findSome?_eq_none_iff]
  constructor
  · intro h s hs
    simpa using h (some s) hs
  · intro h r hr
    cases r with
    | none => rfl
    | some s => simp [h s hr]

theorem argumentDefect?_eq_none_iff {i : NodeId} {arguments : List BoundArgument} :
    d.argumentDefect? i arguments = none ↔
      ∀ a ∈ arguments, ∀ v, a.value = some v → v < d.nodes.length := by
  rw [argumentDefect?, List.findSome?_eq_none_iff]
  refine forall₂_congr fun a _ => ?_
  cases h : a.value with
  | none => simp
  | some v => simp

theorem nodeDefect?_eq_none_iff {n : Node} {i : NodeId} :
    d.nodeDefect? (n, i) = none ↔
      (∀ p, n.parent = some p → p < i) ∧
      (∀ s, n.symbol = some s ∨ n.containingSymbol = some s → s < d.symbols.length) ∧
      ∀ call, n.invocation = some call → ∀ a ∈ call.arguments, ∀ v, a.value = some v →
        v < d.nodes.length := by
  simp only [nodeDefect?, Option.or_eq_none_iff, symbolDefect?_eq_none_iff,
    argumentDefect?_eq_none_iff, and_assoc]
  refine and_congr ?_ (and_congr ?_ ?_)
  · cases n.parent with
    | none => simp
    | some p => simp
  · simp [eq_comm]
  · cases n.invocation with
    | none => simp
    | some call => simp

/-- **A document has no defect exactly when it fits and is well formed.** -/
theorem defect?_eq_none_iff : d.defect? = none ↔ d.fits = true ∧ d.WellFormed := by
  have hcycle : (∀ y ∈ d.symbols.zipIdx, d.cycleDefect? y = none) ↔
      ∀ s, ¬ Relation.TransGen d.ContainedIn s s := by
    rw [← climb_eq_none_iff_acyclic]
    constructor
    · intro h i x hx
      exact (cycleDefect?_eq_none_iff hx).mp (h (x, i) (List.mk_mem_zipIdx_iff_getElem?.mpr hx))
    · rintro h ⟨x, i⟩ hy
      have hx := List.mk_mem_zipIdx_iff_getElem?.mp hy
      exact (cycleDefect?_eq_none_iff hx).mpr (h i x hx)
  simp only [defect?, Option.or_eq_none_iff, List.findSome?_eq_none_iff,
    ite_eq_left_iff, reduceCtorEq, imp_false, Decidable.not_not]
  rw [hcycle]
  simp only [Prod.forall, List.mk_mem_zipIdx_iff_getElem?, rangeDefect?_eq_none_iff,
    nodeDefect?_eq_none_iff]
  constructor
  · rintro ⟨⟨⟨hfits, hrange⟩, hacyclic⟩, hnodes⟩
    refine ⟨hfits, ?_⟩
    exact {
      containing_lt := fun s x c hx hc => hrange x s hx c hc
      acyclic := hacyclic
      parent_lt := fun i n p hn hp => (hnodes n i hn).1 p hp
      symbol_lt := fun i n s hn hs => (hnodes n i hn).2.1 s hs
      value_lt := fun i n call a v hn hcall ha hv => (hnodes n i hn).2.2 call hcall a ha v hv }
  · rintro ⟨hfits, h⟩
    exact ⟨⟨⟨hfits, fun x s hx c hc => h.containing_lt s x c hx hc⟩, h.acyclic⟩, fun n i hn =>
      ⟨fun p hp => h.parent_lt i n p hn hp, fun s hs => h.symbol_lt i n s hn hs,
        fun call hcall a ha v hv => h.value_lt i n call a v hn hcall ha hv⟩⟩

namespace WellFormed

theorem climb_lt (h : d.WellFormed) : ∀ {k : Nat} {s v : SymbolId}, s < d.symbols.length →
    d.climb k s = some v → v < d.symbols.length
  | 0, _, _, hs, hv => Option.some.inj hv ▸ hs
  | k + 1, s, v, hs, hv => by
    obtain ⟨c, hc, hrest⟩ := Option.bind_eq_some_iff.mp hv
    have hx := List.getElem?_eq_getElem hs
    rw [containing?_eq hx] at hc
    exact h.climb_lt (h.containing_lt s _ c hx hc) hrest

/-- A chain of containment has ended after as many steps as there are symbols. -/
theorem climb_eq_none (h : d.WellFormed) {s : SymbolId} (hs : s < d.symbols.length) :
    d.climb d.symbols.length s = none := by
  by_contra hne
  obtain ⟨v, hv⟩ := Option.ne_none_iff_exists'.mp hne
  obtain ⟨u, -, hu⟩ := exists_cycle_of_climb hv (h.climb_lt hs hv)
  exact h.acyclic u hu

end WellFormed

/-! ### Child lists -/

/-- Children are listed in increasing order, each once. -/
theorem pairwise_childrenOf (d : Document) (p : NodeId) : (d.childrenOf p).Pairwise (· < ·) := by
  have hpositions : d.nodes.zipIdx.Pairwise fun a b => a.2 < b.2 := by
    rw [← List.pairwise_map (f := Prod.snd) (R := (· < ·)), List.zipIdx_map_snd]
    exact List.pairwise_lt_range'
  have hparents : d.parents.Pairwise fun a b => a.2 < b.2 := by
    refine List.Pairwise.filterMap _ ?_ hpositions
    rintro ⟨m, i⟩ ⟨n, j⟩ hij x hx y hy
    obtain ⟨_, _, rfl⟩ := Option.map_eq_some_iff.mp hx
    obtain ⟨_, _, rfl⟩ := Option.map_eq_some_iff.mp hy
    exact hij
  refine List.Pairwise.filterMap _ ?_ hparents
  rintro ⟨p₁, i⟩ ⟨p₂, j⟩ hij x hx y hy
  simp only [Option.ite_none_right_eq_some, Option.some.injEq] at hx hy
  rw [← hx.2, ← hy.2]
  exact hij

/-- The children of `p` are the nodes whose parent is `p`. -/
theorem mem_childrenOf {d : Document} {p j : NodeId} :
    j ∈ d.childrenOf p ↔ ∃ n, d.nodes[j]? = some n ∧ n.parent = some p := by
  simp only [childrenOf, childrenAmong, parents, List.mem_filterMap, Prod.exists,
    List.mk_mem_zipIdx_iff_getElem?, Option.map_eq_some_iff, Prod.mk.injEq,
    Option.ite_none_right_eq_some, Option.some.injEq]
  constructor
  · rintro ⟨q, i, ⟨n, k, hn, r, hr, rfl, rfl⟩, rfl, rfl⟩
    exact ⟨n, hn, hr⟩
  · rintro ⟨n, hn, hp⟩
    exact ⟨p, j, ⟨n, j, hn, p, hp, rfl, rfl⟩, rfl, rfl⟩

end Document

namespace Tree

variable {d : Document} {t : Tree}

/-- A document that is accepted has no defect and stays as it is. -/
theorem ofDocument_eq_ok_iff : ofDocument d = .ok t ↔
    (d.fits = true ∧ d.WellFormed) ∧ t.toDocument = d ∧
      t.children = (List.range d.nodes.length).map d.childrenOf := by
  unfold ofDocument
  rw [← Document.defect?_eq_none_iff]
  cases d.defect? with
  | some e => simp
  | none =>
    simp only [Except.ok.injEq, true_and]
    constructor
    · rintro rfl
      exact ⟨rfl, rfl⟩
    · rintro ⟨rfl, hchildren⟩
      obtain ⟨doc, children⟩ := t
      simp only at hchildren
      subst hchildren
      rfl

theorem childIds_eq (h : ofDocument d = .ok t) {i : NodeId} (hi : i < d.nodes.length) :
    t.childIds i = d.childrenOf i := by
  obtain ⟨-, -, hchildren⟩ := ofDocument_eq_ok_iff.mp h
  rw [childIds, hchildren]
  simp [List.getD_eq_getElem?_getD, hi]

/-- **Exactly the well-formed documents that fit become trees.** The tree keeps the document as it
is and has a child list for every node: the nodes whose parent it is, in increasing order. -/
theorem ofDocument_accepts_exactly (d : Document) :
    ((∃ t, ofDocument d = .ok t) ↔ d.fits = true ∧ d.WellFormed) ∧
    ∀ t, ofDocument d = .ok t →
      t.toDocument = d ∧ t.children.length = d.nodes.length ∧
      ∀ i < d.nodes.length, (t.childIds i).Pairwise (· < ·) ∧
        ∀ j, j ∈ t.childIds i ↔ ∃ n, d.nodes[j]? = some n ∧ n.parent = some i := by
  constructor
  · constructor
    · rintro ⟨t, ht⟩
      exact (ofDocument_eq_ok_iff.mp ht).1
    · intro h
      exact ⟨⟨d, (List.range d.nodes.length).map d.childrenOf⟩,
        ofDocument_eq_ok_iff.mpr ⟨h, rfl, rfl⟩⟩
  · intro t ht
    obtain ⟨-, hdoc, hchildren⟩ := ofDocument_eq_ok_iff.mp ht
    refine ⟨hdoc, by simp [hchildren], fun i hi => ?_⟩
    rw [childIds_eq ht hi]
    exact ⟨d.pairwise_childrenOf i, fun j => Document.mem_childrenOf⟩

end Tree
end TreeLint
