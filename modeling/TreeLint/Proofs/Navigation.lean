/-
# Walks in a tree

In a tree made from a document a parent comes before its children, so climbing
from a node ends, and so does walking below it. The walk takes the next pending
node and puts its children in its place; what it meets is the pre-order of the
nodes below (`Walks.preorder`), which holds each node that has the start among
its ancestors, once, after its parent and in the order of its siblings.

The walks of the library take a number of steps; the relations `Climbs`, `Walks`
and `FindsObject` have no such bound, and look nothing up that is not there.

Key definitions: `Tree.Ordered`, `Tree.Walks`, `Tree.Climbs`, `Tree.FindsObject`,
`Tree.preorder`, `Tree.InPreorder`, `Tree.Navigable`.
Key theorems: `Tree.Ordered.mem_preorder`, `Tree.Ordered.nodup_preorder`,
`Tree.Ordered.descendantsAndSelf_eq`, `Tree.Ordered.preorder_eq_range'`,
`Tree.navigable_of_ofDocument`.
-/
import Mathlib.Data.List.Nodup
import Mathlib.Data.List.Range
import TreeLint.Proofs.Documents

namespace TreeLint
namespace Tree

/-! ### Walks without a bound -/

/-- Climbing from a node, if there is one, ends; every node on the way exists. -/
inductive Climbs (t : Tree) : Option NodeId → List NodeId → Prop
  | done : Climbs t none []
  | step {p : NodeId} {met : List NodeId} : p < t.nodes.length → Climbs t (t.parent? p) met →
      Climbs t (some p) (p :: met)

/-- The walk from some pending nodes ends; every node that is taken exists. -/
inductive Walks (t : Tree) : List NodeId → List NodeId → Prop
  | done : Walks t [] []
  | step {n : NodeId} {pending met : List NodeId} : n < t.nodes.length →
      Walks t (t.childIds n ++ pending) met → Walks t (n :: pending) (n :: met)

/-- The search for an object from a symbol, if there is one, ends with the given answer; every
symbol that is looked at exists. -/
inductive FindsObject (t : Tree) : Option SymbolId → Option SymbolId → Prop
  | nowhere : FindsObject t none none
  | here {s : SymbolId} {x : Symbol} : t.symbol? s = some x → x.kind.isObject = true →
      FindsObject t (some s) (some s)
  | further {s : SymbolId} {x : Symbol} {o : Option SymbolId} : t.symbol? s = some x →
      x.kind.isObject = false → FindsObject t x.containing o → FindsObject t (some s) o

variable {t : Tree}

theorem Climbs.unique {start : Option NodeId} {a b : List NodeId} (ha : t.Climbs start a)
    (hb : t.Climbs start b) : a = b := by
  induction ha generalizing b with
  | done => cases hb; rfl
  | step _ _ ih =>
    cases hb with
    | step _ hb => rw [ih hb]

theorem FindsObject.unique {start a b : Option SymbolId} (ha : t.FindsObject start a)
    (hb : t.FindsObject start b) : a = b := by
  induction ha with
  | nowhere => cases hb; rfl
  | here hx hobject =>
    cases hb with
    | here => rfl
    | further hy hnone => simp_all
  | further hx hnone _ ih =>
    cases hb with
    | here hy hobject => simp_all
    | further hy _ hb =>
      rw [hx, Option.some.injEq] at hy
      exact ih (hy ▸ hb)

/-- With enough steps the bounded climb meets what the unbounded one meets. -/
theorem Climbs.ancestorsWithin_eq {n : NodeId} {met : List NodeId} (h : t.Climbs (t.parent? n) met)
    {k : Nat} (hk : met.length ≤ k) : t.ancestorsWithin k n = met := by
  induction k generalizing n met with
  | zero => rw [List.length_eq_zero_iff.mp (Nat.le_zero.mp hk)]; rfl
  | succ k ih =>
    rw [ancestorsWithin]
    generalize hp : t.parent? n = start at h
    cases h with
    | done => rfl
    | step _ hrest => simp only [ih hrest (Nat.le_of_succ_le_succ hk)]

/-- With enough steps the bounded walk meets what the unbounded one meets. -/
theorem Walks.walk_eq {pending met : List NodeId} (h : t.Walks pending met) {k : Nat}
    (hk : met.length ≤ k) : t.walk k pending = met := by
  induction h generalizing k with
  | done => cases k <;> rfl
  | step _ _ ih =>
    cases k with
    | zero => cases hk
    | succ k => rw [walk, ih (Nat.le_of_succ_le_succ hk)]

/-! ### What the order of the nodes gives -/

/-- Child lists and parents agree, children are listed in increasing order, and a parent comes
before its children. -/
structure Ordered (t : Tree) : Prop where
  mem_childIds : ∀ i j, j ∈ t.childIds i ↔ t.parent? j = some i
  pairwise_childIds : ∀ i, (t.childIds i).Pairwise (· < ·)
  parent_lt : ∀ {i j}, t.parent? j = some i → i < j

theorem lt_of_parent? {i j : NodeId} (h : t.parent? j = some i) : j < t.nodes.length := by
  obtain ⟨n, hn, -⟩ := Option.bind_eq_some_iff.mp h
  exact (List.getElem?_eq_some_iff.mp hn).1

theorem ordered_of_ofDocument {d : Document} (h : ofDocument d = .ok t) : t.Ordered := by
  obtain ⟨⟨-, hwf⟩, rfl, hchildren⟩ := ofDocument_eq_ok_iff.mp h
  have hparent : ∀ {i j}, t.parent? j = some i ↔
      ∃ n, t.nodes[j]? = some n ∧ n.parent = some i := by
    intro i j
    rw [parent?, node?, Option.bind_eq_some_iff]
  have hlt : ∀ {i j}, t.parent? j = some i → i < j := by
    intro i j hp
    obtain ⟨n, hn, hni⟩ := hparent.mp hp
    exact hwf.parent_lt j n i hn hni
  -- a position that is no node has no children, and is nobody's parent
  have hbeyond : ∀ {i}, ¬ i < t.nodes.length → t.childIds i = [] := by
    intro i hi
    rw [childIds, hchildren]
    simp [List.getD_eq_getElem?_getD, Nat.le_of_not_lt hi]
  refine ⟨fun i j => ?_, fun i => ?_, hlt⟩
  · by_cases hi : i < t.nodes.length
    · rw [childIds_eq h hi, hparent, Document.mem_childrenOf]
    · rw [hbeyond hi]
      constructor
      · intro hj
        cases hj
      · intro hp
        exact absurd ((hlt hp).trans (lt_of_parent? hp)) hi
  · by_cases hi : i < t.nodes.length
    · rw [childIds_eq h hi]
      exact t.toDocument.pairwise_childrenOf i
    · rw [hbeyond hi]
      exact List.Pairwise.nil

namespace Ordered

theorem child_lt (h : t.Ordered) {n m : NodeId} (hm : m ∈ t.childIds n) :
    n < m ∧ m < t.nodes.length :=
  ⟨h.parent_lt ((h.mem_childIds n m).mp hm), lt_of_parent? ((h.mem_childIds n m).mp hm)⟩

/-- What holds of the roots, and of a node if it holds of its parent, holds of all nodes. -/
theorem induction_up (h : t.Ordered) {P : NodeId → Prop}
    (root : ∀ n, t.parent? n = none → P n)
    (child : ∀ n p, t.parent? n = some p → P p → P n) (n : NodeId) : P n := by
  induction n using Nat.strong_induction_on with
  | _ n ih =>
    cases hp : t.parent? n with
    | none => exact root n hp
    | some p => exact child n p hp (ih p (h.parent_lt hp))

/-- What holds of a node if it holds of its children holds of all nodes. -/
theorem induction_down (h : t.Ordered) {P : NodeId → Prop}
    (node : ∀ n, (∀ m ∈ t.childIds n, P m) → P n) (n : NodeId) : P n := by
  generalize hk : t.nodes.length - n = k
  induction k using Nat.strong_induction_on generalizing n with
  | _ k ih =>
    refine node n fun m hm => ih (t.nodes.length - m) ?_ m rfl
    obtain ⟨hlt, hlen⟩ := h.child_lt hm
    rw [← hk]
    exact Nat.sub_lt_sub_left (hlt.trans hlen) hlt

/-! ### Ancestors -/

theorem exists_climbs (h : t.Ordered) (n : NodeId) :
    ∃ met, t.Climbs (t.parent? n) met ∧ met.length ≤ n := by
  induction n using h.induction_up with
  | root n hp => exact ⟨[], hp ▸ .done, Nat.zero_le n⟩
  | child n p hp ih =>
    obtain ⟨met, hmet, hlen⟩ := ih
    have hlt : p < n := h.parent_lt hp
    refine ⟨p :: met, hp ▸ .step (hlt.trans (lt_of_parent? hp)) hmet, ?_⟩
    exact Nat.succ_le_of_lt (Nat.lt_of_le_of_lt hlen hlt)

theorem climbs_ancestors (h : t.Ordered) (n : NodeId) : t.Climbs (t.parent? n) (t.ancestors n) := by
  obtain ⟨met, hmet, hlen⟩ := h.exists_climbs n
  rw [ancestors, hmet.ancestorsWithin_eq hlen]
  exact hmet

theorem ancestors_of_root (h : t.Ordered) {n : NodeId} (hp : t.parent? n = none) :
    t.ancestors n = [] :=
  (h.climbs_ancestors n).unique (hp ▸ .done)

theorem ancestors_of_parent (h : t.Ordered) {n p : NodeId} (hp : t.parent? n = some p) :
    t.ancestors n = p :: t.ancestors p :=
  (h.climbs_ancestors n).unique
    (hp ▸ .step ((h.parent_lt hp).trans (lt_of_parent? hp)) (h.climbs_ancestors p))

theorem lt_of_mem_ancestors (h : t.Ordered) {n a : NodeId} (ha : a ∈ t.ancestors n) : a < n := by
  induction n using h.induction_up with
  | root n hp =>
    rw [h.ancestors_of_root hp] at ha
    cases ha
  | child n p hp ih =>
    rw [h.ancestors_of_parent hp] at ha
    rcases List.mem_cons.mp ha with rfl | ha
    · exact h.parent_lt hp
    · exact (ih ha).trans (h.parent_lt hp)

theorem ancestors_trans (h : t.Ordered) {a b n : NodeId} (ha : a ∈ t.ancestors b)
    (hb : b ∈ t.ancestors n) : a ∈ t.ancestors n := by
  induction n using h.induction_up with
  | root n hp =>
    rw [h.ancestors_of_root hp] at hb
    cases hb
  | child n p hp ih =>
    rw [h.ancestors_of_parent hp] at hb ⊢
    rcases List.mem_cons.mp hb with rfl | hb
    · exact List.mem_cons_of_mem _ ha
    · exact List.mem_cons_of_mem _ (ih hb)

theorem nodup_ancestors (h : t.Ordered) (n : NodeId) : (t.ancestors n).Nodup := by
  induction n using h.induction_up with
  | root n hp =>
    rw [h.ancestors_of_root hp]
    exact List.nodup_nil
  | child n p hp ih =>
    rw [h.ancestors_of_parent hp, List.nodup_cons]
    exact ⟨fun hp => Nat.lt_irrefl p (h.lt_of_mem_ancestors hp), ih⟩

end Ordered

/-- The node `m` is `n` or below it. -/
def Within (t : Tree) (n m : NodeId) : Prop := m = n ∨ n ∈ t.ancestors m

namespace Ordered

theorem within_trans (h : t.Ordered) {a b n : NodeId} (ha : t.Within a b) (hb : t.Within b n) :
    t.Within a n := by
  rcases ha with rfl | ha
  · exact hb
  · rcases hb with rfl | hb
    · exact Or.inr ha
    · exact Or.inr (h.ancestors_trans ha hb)

theorem le_of_within (h : t.Ordered) {n m : NodeId} (hm : t.Within n m) : n ≤ m := by
  rcases hm with rfl | hm
  · exact Nat.le_refl m
  · exact Nat.le_of_lt (h.lt_of_mem_ancestors hm)

theorem within_iff_of_parent (h : t.Ordered) {n m p : NodeId} (hp : t.parent? m = some p) :
    t.Within n m ↔ m = n ∨ t.Within n p := by
  rw [Within, h.ancestors_of_parent hp, List.mem_cons, Within, eq_comm (a := p)]

theorem within_iff_of_root (h : t.Ordered) {n m : NodeId} (hp : t.parent? m = none) :
    t.Within n m ↔ m = n := by
  rw [Within, h.ancestors_of_root hp]
  simp

theorem within_cases (h : t.Ordered) {n m : NodeId} (hm : t.Within n m) :
    m = n ∨ ∃ p, t.parent? m = some p ∧ t.Within n p := by
  cases hp : t.parent? m with
  | none => exact Or.inl ((h.within_iff_of_root hp).mp hm)
  | some p => exact ((h.within_iff_of_parent hp).mp hm).imp_right fun hn => ⟨p, rfl, hn⟩

theorem within_or_within (h : t.Ordered) {a b n : NodeId} (ha : t.Within a n) (hb : t.Within b n) :
    t.Within a b ∨ t.Within b a := by
  induction n using h.induction_up with
  | root n hp =>
    rw [h.within_iff_of_root hp] at ha hb
    exact Or.inl (Or.inl (hb.symm.trans ha))
  | child n p hp ih =>
    rcases (h.within_iff_of_parent hp).mp ha with rfl | ha'
    · exact Or.inr hb
    · rcases (h.within_iff_of_parent hp).mp hb with rfl | hb'
      · exact Or.inl ha
      · exact ih ha' hb'

/-- Nothing is within two different children of one node. -/
theorem eq_of_within_siblings (h : t.Ordered) {n a b m : NodeId} (ha : t.parent? a = some n)
    (hb : t.parent? b = some n) (hma : t.Within a m) (hmb : t.Within b m) : a = b := by
  have hnot : ∀ {a b}, t.parent? a = some n → t.parent? b = some n → t.Within a b → b = a := by
    intro a b ha hb hab
    rcases (h.within_iff_of_parent hb).mp hab with heq | hn
    · exact heq
    · exact absurd (h.le_of_within hn) (Nat.not_le_of_lt (h.parent_lt ha))
  rcases h.within_or_within hma hmb with hab | hba
  · exact (hnot ha hb hab).symm
  · exact hnot hb ha hba

end Ordered

/-! ### Pre-order -/

/-- A node, then what its children give, child after child. -/
def preorder (t : Tree) (h : t.Ordered) (n : NodeId) : List NodeId :=
  n :: (t.childIds n).attach.flatMap fun m => preorder t h m.1
termination_by t.nodes.length - n
decreasing_by
  obtain ⟨hlt, hlen⟩ := h.child_lt m.2
  exact Nat.sub_lt_sub_left (hlt.trans hlen) hlt

namespace Ordered

theorem preorder_eq (h : t.Ordered) (n : NodeId) :
    preorder t h n = n :: (t.childIds n).flatMap (preorder t h) := by
  rw [preorder, List.flatMap_subtype (fun _ _ => rfl), List.unattach_attach]

theorem self_mem_preorder (h : t.Ordered) (n : NodeId) : n ∈ preorder t h n := by
  rw [h.preorder_eq]
  exact List.mem_cons_self

theorem child_mem_preorder (h : t.Ordered) {n p m : NodeId} (hp : p ∈ preorder t h n)
    (hm : m ∈ t.childIds p) : m ∈ preorder t h n := by
  induction n using h.induction_down with
  | node n ih =>
    rw [h.preorder_eq, List.mem_cons, List.mem_flatMap] at hp ⊢
    right
    rcases hp with rfl | ⟨c, hc, hp⟩
    · exact ⟨m, hm, h.self_mem_preorder m⟩
    · exact ⟨c, hc, ih c hc hp⟩

/-- **The pre-order holds the nodes within the start.** -/
theorem mem_preorder (h : t.Ordered) {n m : NodeId} : m ∈ preorder t h n ↔ t.Within n m := by
  constructor
  · intro hm
    induction n using h.induction_down with
    | node n ih =>
      rw [h.preorder_eq, List.mem_cons, List.mem_flatMap] at hm
      rcases hm with rfl | ⟨c, hc, hm⟩
      · exact Or.inl rfl
      · have hcn : t.Within n c :=
          (h.within_iff_of_parent ((h.mem_childIds n c).mp hc)).mpr (Or.inr (Or.inl rfl))
        exact h.within_trans hcn (ih c hc hm)
  · intro hm
    induction m using h.induction_up with
    | root m hp =>
      rw [(h.within_iff_of_root hp).mp hm]
      exact h.self_mem_preorder n
    | child m p hp ih =>
      rcases (h.within_iff_of_parent hp).mp hm with rfl | hp'
      · exact h.self_mem_preorder m
      · exact h.child_mem_preorder (ih hp') ((h.mem_childIds p m).mpr hp)

theorem lt_of_mem_preorder (h : t.Ordered) {n m : NodeId} (hn : n < t.nodes.length)
    (hm : m ∈ preorder t h n) : m < t.nodes.length := by
  rcases h.within_cases (h.mem_preorder.mp hm) with rfl | ⟨p, hp, -⟩
  · exact hn
  · exact lt_of_parent? hp

/-- A relation holds along the pre-order if it holds between a node and what is below it, and
between what is within one child and what is within a later child of the same node. -/
theorem pairwise_preorder (h : t.Ordered) {R : NodeId → NodeId → Prop}
    (below : ∀ n m, n ∈ t.ancestors m → R n m)
    (across : ∀ n a b x y, t.parent? a = some n → t.parent? b = some n → a < b →
      t.Within a x → t.Within b y → R x y) (n : NodeId) : (preorder t h n).Pairwise R := by
  induction n using h.induction_down with
  | node n ih =>
    rw [h.preorder_eq, List.pairwise_cons, List.pairwise_flatMap]
    refine ⟨?_, ih, ?_⟩
    · intro m hm
      have hmem : m ∈ preorder t h n := by
        rw [h.preorder_eq]
        exact List.mem_cons_of_mem _ hm
      rcases h.mem_preorder.mp hmem with rfl | hanc
      · obtain ⟨c, hc, hm⟩ := List.mem_flatMap.mp hm
        exact absurd (h.le_of_within (h.mem_preorder.mp hm)) (Nat.not_le_of_lt (h.child_lt hc).1)
      · exact below n m hanc
    · refine (h.pairwise_childIds n).imp_of_mem ?_
      intro a b ha hb hab x hx y hy
      exact across n a b x y ((h.mem_childIds n a).mp ha) ((h.mem_childIds n b).mp hb) hab
        (h.mem_preorder.mp hx) (h.mem_preorder.mp hy)

theorem nodup_preorder (h : t.Ordered) (n : NodeId) : (preorder t h n).Nodup := by
  refine h.pairwise_preorder (fun n m hm => ?_) (fun n a b x y ha hb hab hx hy => ?_) n
  · exact Nat.ne_of_lt (h.lt_of_mem_ancestors hm)
  · rintro rfl
    exact Nat.ne_of_lt hab (h.eq_of_within_siblings ha hb hx hy)

theorem parent_first (h : t.Ordered) (n : NodeId) :
    (preorder t h n).Pairwise fun x y => t.parent? x ≠ some y := by
  refine h.pairwise_preorder (fun n m hm hp => ?_) (fun n a b x y ha hb hab hx hy hp => ?_) n
  · exact Nat.lt_asymm (h.lt_of_mem_ancestors hm) (h.parent_lt hp)
  · -- the parent of `x` is `n` or within `a`, so not within `b`
    rcases (h.within_iff_of_parent hp).mp hx with rfl | hx
    · rw [ha] at hp
      cases hp
      exact Nat.not_le_of_lt (h.parent_lt hb) (h.le_of_within hy)
    · exact Nat.ne_of_lt hab (h.eq_of_within_siblings ha hb hx hy)

theorem siblings_in_order (h : t.Ordered) (n : NodeId) :
    (preorder t h n).Pairwise fun x y => t.parent? x = t.parent? y → x < y := by
  refine h.pairwise_preorder ?_ ?_ n
  · intro n m hm _
    exact h.lt_of_mem_ancestors hm
  · intro n a b x y ha hb hab hx hy heq
    -- only `a` and `b` themselves can have the same parent
    rcases h.within_cases hx with rfl | ⟨p, hp, hap⟩
    · rcases h.within_cases hy with rfl | ⟨q, hq, hbq⟩
      · exact hab
      · rw [← heq, ha] at hq
        cases hq
        exact absurd (h.le_of_within hbq) (Nat.not_le_of_lt (h.parent_lt hb))
    · rcases h.within_cases hy with rfl | ⟨q, hq, hbq⟩
      · rw [heq, hb] at hp
        cases hp
        exact absurd (h.le_of_within hap) (Nat.not_le_of_lt (h.parent_lt ha))
      · rw [heq, hq] at hp
        cases hp
        exact absurd (h.eq_of_within_siblings ha hb hap hbq) (Nat.ne_of_lt hab)

/-! ### The walk is the pre-order -/

/-- The unbounded walk meets the pre-orders of the pending nodes, one after the other. -/
theorem walks_preorder (h : t.Ordered) {pending : List NodeId}
    (hpending : ∀ n ∈ pending, n < t.nodes.length) :
    t.Walks pending (pending.flatMap (preorder t h)) := by
  -- each step meets one node, so the induction is on how many are left to meet
  generalize hk : (pending.flatMap (preorder t h)).length = k
  induction k generalizing pending with
  | zero =>
    cases pending with
    | nil => exact .done
    | cons n pending => simp [h.preorder_eq n] at hk
  | succ k ih =>
    cases pending with
    | nil => cases hk
    | cons n pending =>
      have hstep : (n :: pending).flatMap (preorder t h) =
          n :: (t.childIds n ++ pending).flatMap (preorder t h) := by
        rw [List.flatMap_cons, h.preorder_eq, List.flatMap_append, List.cons_append]
      rw [hstep] at hk ⊢
      refine .step (hpending n List.mem_cons_self) (ih ?_ (Nat.succ.inj hk))
      intro m hm
      rcases List.mem_append.mp hm with hm | hm
      · exact (h.child_lt hm).2
      · exact hpending m (List.mem_cons_of_mem _ hm)

theorem length_preorder_le (h : t.Ordered) {n : NodeId} (hn : n < t.nodes.length) :
    (preorder t h n).length ≤ t.nodes.length := by
  have hsub : preorder t h n ⊆ List.range t.nodes.length := fun m hm =>
    List.mem_range.mpr (h.lt_of_mem_preorder hn hm)
  have hle := ((h.nodup_preorder n).subperm hsub).length_le
  rwa [List.length_range] at hle

theorem walks_self (h : t.Ordered) {n : NodeId} (hn : n < t.nodes.length) :
    t.Walks [n] (preorder t h n) := by
  have hone : t.Walks [n] ([n].flatMap (preorder t h)) := h.walks_preorder (by simpa using hn)
  rwa [List.flatMap_singleton] at hone

/-- **The walk from a node is its pre-order.** -/
theorem descendantsAndSelf_eq (h : t.Ordered) {n : NodeId} (hn : n < t.nodes.length) :
    t.descendantsAndSelf n = preorder t h n :=
  (h.walks_self hn).walk_eq (h.length_preorder_le hn)

theorem walks_childIds (h : t.Ordered) (n : NodeId) :
    t.Walks (t.childIds n) ((t.childIds n).flatMap (preorder t h)) :=
  h.walks_preorder fun _ hm => (h.child_lt hm).2

theorem descendants_eq (h : t.Ordered) {n : NodeId} (hn : n < t.nodes.length) :
    t.descendants n = (t.childIds n).flatMap (preorder t h) := by
  have hlen := h.length_preorder_le hn
  rw [h.preorder_eq, List.length_cons] at hlen
  exact (h.walks_childIds n).walk_eq (Nat.le_of_succ_le hlen)

theorem descendantsAndSelf_eq_cons (h : t.Ordered) {n : NodeId} (hn : n < t.nodes.length) :
    t.descendantsAndSelf n = n :: t.descendants n := by
  rw [h.descendantsAndSelf_eq hn, h.descendants_eq hn, h.preorder_eq]

/-- A node is met below another exactly when the other is among its ancestors. -/
theorem mem_descendants (h : t.Ordered) {n m : NodeId} (hn : n < t.nodes.length) :
    m ∈ t.descendants n ↔ n ∈ t.ancestors m := by
  have hall : m ∈ t.descendantsAndSelf n ↔ t.Within n m := by
    rw [h.descendantsAndSelf_eq hn, h.mem_preorder]
  have hnodup := h.nodup_preorder n
  rw [← h.descendantsAndSelf_eq hn, h.descendantsAndSelf_eq_cons hn, List.nodup_cons] at hnodup
  rw [h.descendantsAndSelf_eq_cons hn, List.mem_cons, Within] at hall
  -- the start is neither below itself nor its own ancestor
  have hself : n ∉ t.ancestors n := fun hn => Nat.lt_irrefl n (h.lt_of_mem_ancestors hn)
  by_cases hmn : m = n
  · subst hmn
    exact iff_of_false hnodup.1 hself
  · simpa [hmn] using hall

/-! ### Roots -/

theorem mem_roots {r : NodeId} : r ∈ t.roots ↔ r < t.nodes.length ∧ t.parent? r = none := by
  simp only [roots, List.mem_map, List.mem_filter, Prod.exists, List.mk_mem_zipIdx_iff_getElem?,
    Option.isNone_iff_eq_none, parent?, node?]
  constructor
  · rintro ⟨n, i, ⟨hn, hp⟩, rfl⟩
    exact ⟨(List.getElem?_eq_some_iff.mp hn).1, by rw [hn, Option.bind_some, hp]⟩
  · rintro ⟨hr, hp⟩
    rw [List.getElem?_eq_getElem hr, Option.bind_some] at hp
    exact ⟨_, r, ⟨List.getElem?_eq_getElem hr, hp⟩, rfl⟩

theorem nodup_roots : t.roots.Nodup := by
  have hpositions : (t.nodes.zipIdx.map Prod.snd).Nodup := by
    rw [List.zipIdx_map_snd]
    exact List.nodup_range'
  exact hpositions.sublist (List.filter_sublist.map Prod.snd)

theorem exists_root (h : t.Ordered) {m : NodeId} (hm : m < t.nodes.length) :
    ∃ r ∈ t.roots, t.Within r m := by
  induction m using h.induction_up with
  | root m hp => exact ⟨m, mem_roots.mpr ⟨hm, hp⟩, Or.inl rfl⟩
  | child m p hp ih =>
    obtain ⟨r, hr, hrp⟩ := ih ((h.parent_lt hp).trans hm)
    exact ⟨r, hr, (h.within_iff_of_parent hp).mpr (Or.inr hrp)⟩

theorem eq_of_within_roots (h : t.Ordered) {r q m : NodeId} (hr : r ∈ t.roots) (hq : q ∈ t.roots)
    (hmr : t.Within r m) (hmq : t.Within q m) : r = q := by
  rcases h.within_or_within hmr hmq with hrq | hqr
  · exact ((h.within_iff_of_root (mem_roots.mp hq).2).mp hrq).symm
  · exact (h.within_iff_of_root (mem_roots.mp hr).2).mp hqr

/-- **The walks from the roots meet every node once.** -/
theorem roots_flatMap_perm (h : t.Ordered) :
    (t.roots.flatMap t.descendantsAndSelf).Perm (List.range t.nodes.length) := by
  have hpre : t.roots.flatMap t.descendantsAndSelf = t.roots.flatMap (preorder t h) :=
    List.flatMap_congr fun r hr => h.descendantsAndSelf_eq (mem_roots.mp hr).1
  have hnodup : (t.roots.flatMap (preorder t h)).Nodup := by
    refine List.nodup_flatMap.mpr ⟨fun r _ => h.nodup_preorder r, ?_⟩
    refine nodup_roots.imp_of_mem ?_
    intro r q hr hq hne m hmr hmq
    exact hne (h.eq_of_within_roots hr hq (h.mem_preorder.mp hmr) (h.mem_preorder.mp hmq))
  rw [hpre, List.perm_ext_iff_of_nodup hnodup List.nodup_range]
  intro m
  rw [List.mem_flatMap, List.mem_range]
  constructor
  · rintro ⟨r, hr, hm⟩
    exact h.lt_of_mem_preorder (mem_roots.mp hr).1 hm
  · intro hm
    obtain ⟨r, hr, hrm⟩ := h.exists_root hm
    exact ⟨r, hr, h.mem_preorder.mpr hrm⟩

end Ordered

/-! ### Nodes in pre-order -/

/-- A node that is no root hangs on the node before it or on an ancestor of that one. -/
def InPreorder (t : Tree) : Prop :=
  ∀ i p, t.parent? (i + 1) = some p → p = i ∨ p ∈ t.ancestors i

instance (t : Tree) : Decidable t.InPreorder :=
  decidable_of_iff
    (∀ i < t.nodes.length, ∀ p ∈ t.parent? (i + 1), p = i ∨ p ∈ t.ancestors i)
    ⟨fun h i p hp => h i (Nat.lt_of_succ_lt (lt_of_parent? hp)) p hp, fun h i _ p hp => h i p hp⟩

/-- An increasing list without gaps is an interval. -/
theorem cons_eq_range' : ∀ (l : List Nat) (n : Nat), (n :: l).Pairwise (· < ·) →
    (∀ m ∈ l, ∀ k, n < k → k ≤ m → k ∈ l) → n :: l = List.range' n (l.length + 1)
  | [], _, _, _ => rfl
  | a :: l, n, hsorted, hgap => by
    rw [List.pairwise_cons] at hsorted
    have ha : a = n + 1 := by
      have hlt : n < a := hsorted.1 a List.mem_cons_self
      rcases List.mem_cons.mp (hgap a List.mem_cons_self (n + 1) (Nat.lt_succ_self n) hlt) with h | h
      · exact h.symm
      · have := (List.pairwise_cons.mp hsorted.2).1 (n + 1) h
        omega
    have hgap' : ∀ m ∈ l, ∀ k, a < k → k ≤ m → k ∈ l := by
      intro m hm k hk hkm
      rcases List.mem_cons.mp (hgap m (List.mem_cons_of_mem _ hm) k (by omega) hkm) with h | h
      · omega
      · exact h
    rw [List.length_cons, List.range'_succ, ← ha, ← cons_eq_range' l a hsorted.2 hgap']

namespace Ordered

/-- In pre-order, what is within a node has no gaps. -/
theorem within_of_le (h : t.Ordered) (hpre : t.InPreorder) {n : NodeId} :
    ∀ (j k : Nat), n ≤ k → t.Within n (k + j) → t.Within n k
  | 0, _, _, hm => hm
  | j + 1, k, hk, hm => by
    refine h.within_of_le hpre j k hk ?_
    rcases h.within_cases hm with heq | ⟨p, hp, hnp⟩
    · exact absurd (heq ▸ hk) (Nat.not_le_of_lt (by omega))
    · rcases hpre (k + j) p hp with rfl | hanc
      · exact hnp
      · exact h.within_trans hnp (Or.inr hanc)

theorem lt_of_within_sibling (h : t.Ordered) (hpre : t.InPreorder) {n a b x : NodeId}
    (ha : t.parent? a = some n) (hb : t.parent? b = some n) (hab : a < b) (hx : t.Within a x) :
    x < b := by
  by_contra hge
  obtain ⟨j, rfl⟩ := Nat.exists_eq_add_of_le (Nat.le_of_not_lt hge)
  have hbetween : t.Within a b := h.within_of_le hpre j b (Nat.le_of_lt hab) hx
  exact Nat.ne_of_lt hab (h.eq_of_within_siblings ha hb hbetween (Or.inl rfl))

/-- **In pre-order, the walk from a node is an interval.** -/
theorem preorder_eq_range' (h : t.Ordered) (hpre : t.InPreorder) (n : NodeId) :
    preorder t h n = List.range' n (preorder t h n).length := by
  have hsorted : (preorder t h n).Pairwise (· < ·) := by
    refine h.pairwise_preorder (fun n m hm => h.lt_of_mem_ancestors hm) ?_ n
    intro n a b x y ha hb hab hx hy
    exact Nat.lt_of_lt_of_le (h.lt_of_within_sibling hpre ha hb hab hx) (h.le_of_within hy)
  have hgap : ∀ m ∈ (t.childIds n).flatMap (preorder t h), ∀ k, n < k → k ≤ m →
      k ∈ (t.childIds n).flatMap (preorder t h) := by
    intro m hm k hk hkm
    have hmem : m ∈ preorder t h n := by
      rw [h.preorder_eq]
      exact List.mem_cons_of_mem _ hm
    obtain ⟨j, rfl⟩ := Nat.exists_eq_add_of_le hkm
    have hwithin := h.within_of_le hpre j k (Nat.le_of_lt hk) (h.mem_preorder.mp hmem)
    rw [← h.mem_preorder, h.preorder_eq] at hwithin
    exact (List.mem_cons.mp hwithin).resolve_left (Nat.ne_of_gt hk)
  rw [h.preorder_eq] at hsorted ⊢
  rw [List.length_cons, ← cons_eq_range' _ n hsorted hgap]

end Ordered

/-! ### The object around a symbol -/

/-- A search that has as many steps as the chain of containment needs ends with its answer. -/
theorem findsObject_of_climb (hwf : t.toDocument.WellFormed) : ∀ (k : Nat) {s : SymbolId},
    s < t.symbols.length → t.toDocument.climb k s = none →
      t.FindsObject (some s) (t.objectWithin k s)
  | 0, _, _, hend => by cases hend
  | k + 1, s, hs, hend => by
    have hx : t.symbol? s = some t.symbols[s] := List.getElem?_eq_getElem hs
    rw [objectWithin, hx]
    simp only
    split
    · rename_i hobject
      exact .here hx hobject
    · rename_i hobject
      refine .further hx (Bool.eq_false_of_not_eq_true hobject) ?_
      cases hc : t.symbols[s].containing with
      | none => exact .nowhere
      | some c =>
        rw [Document.climb, Document.containing?_eq hx, hc, Option.bind_some] at hend
        exact findsObject_of_climb hwf k (hwf.containing_lt s _ c hx hc) hend

/-! ### Moving about -/

/-- What moving about in a tree gives. The first four say that the walks end and look up only what
is there; the others say what is met, and in which order. -/
structure Navigable (t : Tree) : Prop extends t.Ordered where
  climbs_ancestors : ∀ n < t.nodes.length, t.Climbs (t.parent? n) (t.ancestors n)
  walks_descendants : ∀ n < t.nodes.length, t.Walks (t.childIds n) (t.descendants n)
  walks_descendantsAndSelf : ∀ n < t.nodes.length, t.Walks [n] (t.descendantsAndSelf n)
  findsObject : ∀ s < t.symbols.length, t.FindsObject (some s) (t.containingObject? s)
  mem_descendants_iff : ∀ n < t.nodes.length, ∀ m < t.nodes.length,
    m ∈ t.descendants n ↔ n ∈ t.ancestors m
  nodup_ancestors : ∀ n < t.nodes.length, (t.ancestors n).Nodup
  nodup_descendantsAndSelf : ∀ n < t.nodes.length, (t.descendantsAndSelf n).Nodup
  /-- A node is not met before its parent. -/
  parent_first : ∀ n < t.nodes.length,
    (t.descendantsAndSelf n).Pairwise fun x y => t.parent? x ≠ some y
  /-- Siblings are met in increasing order. -/
  siblings_in_order : ∀ n < t.nodes.length,
    (t.descendantsAndSelf n).Pairwise fun x y => t.parent? x = t.parent? y → x < y
  descendantsAndSelf_eq_preorder : ∀ n < t.nodes.length,
    t.descendantsAndSelf n = preorder t toOrdered n
  descendantsAndSelf_eq_cons : ∀ n < t.nodes.length,
    t.descendantsAndSelf n = n :: t.descendants n
  /-- The walks from the roots meet every node once. -/
  roots_perm : (t.roots.flatMap t.descendantsAndSelf).Perm (List.range t.nodes.length)
  /-- If the nodes are in pre-order, the walk from a node is an interval that starts there. -/
  descendantsAndSelf_eq_range' : t.InPreorder → ∀ n < t.nodes.length,
    ∃ k, t.descendantsAndSelf n = List.range' n (k + 1)

/-- **Every tree made from a document can be navigated.** -/
theorem navigable_of_ofDocument {d : Document} (h : ofDocument d = .ok t) : t.Navigable := by
  have ho := ordered_of_ofDocument h
  obtain ⟨⟨-, hwf⟩, hdoc, -⟩ := ofDocument_eq_ok_iff.mp h
  rw [← hdoc] at hwf
  exact {
    toOrdered := ho
    climbs_ancestors := fun n _ => ho.climbs_ancestors n
    walks_descendants := fun n hn => by
      rw [ho.descendants_eq hn]
      exact ho.walks_childIds n
    walks_descendantsAndSelf := fun n hn => by
      rw [ho.descendantsAndSelf_eq hn]
      exact ho.walks_self hn
    findsObject := fun s hs => findsObject_of_climb hwf _ hs (hwf.climb_eq_none hs)
    mem_descendants_iff := fun n hn m _ => ho.mem_descendants hn
    nodup_ancestors := fun n _ => ho.nodup_ancestors n
    nodup_descendantsAndSelf := fun n hn => by
      rw [ho.descendantsAndSelf_eq hn]
      exact ho.nodup_preorder n
    parent_first := fun n hn => by
      rw [ho.descendantsAndSelf_eq hn]
      exact ho.parent_first n
    siblings_in_order := fun n hn => by
      rw [ho.descendantsAndSelf_eq hn]
      exact ho.siblings_in_order n
    descendantsAndSelf_eq_preorder := fun n hn => ho.descendantsAndSelf_eq hn
    descendantsAndSelf_eq_cons := fun n hn => ho.descendantsAndSelf_eq_cons hn
    roots_perm := ho.roots_flatMap_perm
    descendantsAndSelf_eq_range' := fun hpre n hn => by
      refine ⟨(t.descendants n).length, ?_⟩
      rw [← List.length_cons, ← ho.descendantsAndSelf_eq_cons hn, ho.descendantsAndSelf_eq hn]
      exact ho.preorder_eq_range' hpre n }

/-- Two roots, the first with two children, of which the first has a child; one symbol in
another. -/
def sampleDocument : Document where
  path := "a.al"
  symbols := [{ kind := .codeunit, name := "C" }, { kind := .method, name := "M", containing := some 0 }]
  nodes := [none, some 0, some 1, some 0, none].map fun parent =>
    { kind := .block, span := ⟨0, 1, 1, 1, 1, 2⟩, parent, containingSymbol := some 1 }

/-- The tree of the sample can be navigated, and the walk from its first root is an interval. -/
theorem navigable_sampleDocument : ∃ t, ofDocument sampleDocument = .ok t ∧ t.Navigable ∧
    t.InPreorder ∧ ∃ k, t.descendantsAndSelf 0 = List.range' 0 (k + 1) := by
  have hok : ofDocument sampleDocument =
      .ok ⟨sampleDocument, [[1, 3], [2], [], [], []]⟩ := rfl
  have hnav := navigable_of_ofDocument hok
  have hpre : InPreorder ⟨sampleDocument, [[1, 3], [2], [], [], []]⟩ := by decide
  exact ⟨_, hok, hnav, hpre, hnav.descendantsAndSelf_eq_range' hpre 0 (by decide)⟩

end Tree
end TreeLint
