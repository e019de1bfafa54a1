/-
# The shape of the tree of a source text

The nodes of a tree are numbered in the order of the walk, so what is below a
node follows it directly. From a nested outline the whole shape of a resolved
tree is read off: one root for all of the text, spans within the span of the
parent and in source order, a text for every node, descendants that form an
interval of positions, and arguments bound in order to the argument nodes of
their call.

Key definitions: `Tree.isArgument`, `Tree.Shaped`.
Key theorems: `Source.Outline.inPreorder`, `Source.filter_isArgument_childIds`,
`Source.shaped_of_resolve`.
-/
import TreeLint.Proofs.Nesting

namespace TreeLint
namespace Source

/-! ### Positions -/

namespace Outline

variable {o b b' : Outline} {parent p p' : Option Nat} {first i j k : Nat} {e e' : Entry}
  {w : Extent}

/-- What is at the top of an outline is at its position in it. -/
theorem TopAt.at (h : o.TopAt first i e b) (parent : Option Nat) :
    o.At parent first i parent e b := by
  induction h with
  | here => exact .here
  | later _ ih => exact .later ih

theorem TopAt.bounds (h : o.TopAt first i e b) : first ≤ i ∧ i + b.size < first + o.size :=
  (h.at none).bounds

theorem At.trans (h : o.At parent first i p e b) (h' : b.At (some i) (i + 1) j p' e' b') :
    o.At parent first j p' e' b' := by
  induction h with
  | here => exact .inside h'
  | inside _ ih => exact .inside (ih h')
  | later _ ih => exact .later (ih h')

theorem At.parent_ne_none (h : o.At (some k) first i p e b) : p ≠ none := by
  intro hp
  generalize hq : some k = q at h
  induction h generalizing k with
  | here =>
    subst hq
    cases hp
  | inside _ ih => exact ih hp rfl
  | later _ ih => exact ih hp hq

theorem exists_at (o : Outline) (parent : Option Nat) (first : Nat) (hle : first ≤ i)
    (hlt : i < first + o.size) : ∃ p e b, o.At parent first i p e b := by
  have hlength := length_nodesFrom o parent first
  obtain ⟨n, hn⟩ : ∃ n, (o.nodesFrom parent first)[i - first]? = some n :=
    ⟨_, List.getElem?_eq_getElem (by omega)⟩
  obtain ⟨p, e, b, hat, -⟩ := exists_at_of_getElem? hn
  rw [show first + (i - first) = i by omega] at hat
  exact ⟨p, e, b, hat⟩

theorem At.parent_bounds (h : b.At (some i) (i + 1) j p e b') : ∃ q, p = some q ∧ i ≤ q ∧ q < j := by
  cases p with
  | none => exact absurd rfl h.parent_ne_none
  | some q =>
    refine ⟨q, rfl, ?_⟩
    rcases h.cases_parent with ⟨heq, htop⟩ | ⟨p', e', b', hat, htop⟩
    · cases heq
      have := htop.bounds
      omega
    · have := hat.bounds
      have := htop.bounds
      omega

theorem Nested.of_at {S : Cells} {t : Text} (h : o.Nested S t w) (hat : o.At parent first i p e b) :
    ∃ r, e.span = t.span r ∧ S.Cuts r ∧ b.Nested S t r := by
  induction hat generalizing w with
  | here =>
    obtain ⟨r, hspan, hcuts, -, -, hbelow, -⟩ := h
    exact ⟨r, hspan, hcuts, hbelow⟩
  | inside _ ih =>
    obtain ⟨r, -, -, -, -, hbelow, -⟩ := h
    exact ih hbelow
  | later _ ih =>
    obtain ⟨r, -, -, -, -, -, hnext⟩ := h
    exact ih hnext

theorem Nested.of_topAt {S : Cells} {t : Text} (h : o.Nested S t w) (htop : o.TopAt first i e b) :
    w.start ≤ e.span.startByte ∧ e.span.endByte ≤ w.stop := by
  induction htop generalizing w with
  | here =>
    obtain ⟨r, hspan, -, hstart, hstop, -, -⟩ := h
    rw [hspan]
    exact ⟨hstart, hstop⟩
  | later _ ih =>
    obtain ⟨r, -, hcuts, hstart, -, -, hnext⟩ := h
    obtain ⟨hstart', hstop'⟩ := ih hnext
    have := hcuts.le
    simp only at hstart' hstop'
    exact ⟨by omega, hstop'⟩

theorem Nested.topAt_order {S : Cells} {t : Text} (h : o.Nested S t w) (hi : o.TopAt first i e b)
    (hj : o.TopAt first j e' b') (hlt : i < j) : e.span.endByte ≤ e'.span.startByte := by
  induction hi generalizing w with
  | here =>
    obtain ⟨r, hspan, -, -, -, -, hnext⟩ := h
    cases hj with
    | here => omega
    | later hj =>
      rw [hspan]
      exact (hnext.of_topAt hj).1
  | later hi ih =>
    obtain ⟨r, -, -, -, -, -, hnext⟩ := h
    cases hj with
    | here =>
      have := hi.bounds
      omega
    | later hj => exact ih hnext hj hlt

theorem mem_argumentIds : i ∈ o.argumentIds first ↔ ∃ e b, o.TopAt first i e b ∧ e.kind = .argument := by
  induction o generalizing first with
  | empty =>
    simp only [argumentIds, List.not_mem_nil, false_iff]
    rintro ⟨e, b, htop, -⟩
    cases htop
  | node e below next _ ih =>
    have hcons : (∃ e' b, (node e below next).TopAt first i e' b ∧ e'.kind = .argument) ↔
        (i = first ∧ e.kind = .argument) ∨
          ∃ e' b, next.TopAt (first + 1 + below.size) i e' b ∧ e'.kind = .argument := by
      constructor
      · rintro ⟨e', b, htop, hkind⟩
        cases htop with
        | here => exact Or.inl ⟨rfl, hkind⟩
        | later htop => exact Or.inr ⟨e', b, htop, hkind⟩
      · rintro (⟨rfl, hkind⟩ | ⟨e', b, htop, hkind⟩)
        · exact ⟨e, below, .here, hkind⟩
        · exact ⟨e', b, .later htop, hkind⟩
    rw [hcons, ← ih, argumentIds]
    by_cases hkind : e.kind = .argument
    · rw [if_pos hkind, List.mem_cons]
      simp [hkind]
    · rw [if_neg hkind]
      simp [hkind]

theorem pairwise_argumentIds (o : Outline) (first : Nat) :
    (o.argumentIds first).Pairwise (· < ·) := by
  induction o generalizing first with
  | empty => exact .nil
  | node e below next _ ih =>
    rw [argumentIds]
    split
    · refine List.pairwise_cons.mpr ⟨fun i hi => ?_, ih _⟩
      obtain ⟨e', b, htop, -⟩ := mem_argumentIds.mp hi
      exact Nat.lt_of_lt_of_le (by omega : first < first + 1 + below.size) htop.bounds.1
    · exact ih _

section Tree

variable {tree : Tree} {doc : Document} (hdoc : Tree.ofDocument doc = .ok tree)
  (ht : tree.nodes = o.nodesFrom none 0)
include hdoc ht

/-- **What is below a node follows it directly.** -/
theorem At.within (h : o.At none 0 i p e b) (hle : i ≤ k) (hlt : k ≤ i + b.size) :
    tree.Within i k := by
  have hordered := Tree.ordered_of_ofDocument hdoc
  induction k using Nat.strong_induction_on with
  | _ k ih =>
    by_cases hk : k = i
    · exact Or.inl hk
    · obtain ⟨p', e', b', hat⟩ := b.exists_at (some i) (i + 1) (i := k) (by omega) (by omega)
      obtain ⟨q, rfl, hq, hq'⟩ := hat.parent_bounds
      have hparent : tree.parent? k = some q := by
        rw [Tree.parent?, (h.trans hat).node?_eq ht]
        rfl
      rw [hordered.within_iff_of_parent hparent]
      exact Or.inr (ih q hq' hq (by omega))

/-- **The nodes are in pre-order.** -/
theorem inPreorder : tree.InPreorder := by
  have hordered := Tree.ordered_of_ofDocument hdoc
  intro i q hparent
  obtain ⟨n, hn, hq⟩ := Option.bind_eq_some_iff.mp hparent
  obtain ⟨p, e, b, hat, rfl⟩ := exists_at_of_node? ht hn
  cases hq
  rcases hat.cases_parent with ⟨hnone, -⟩ | ⟨p', e', b', hat', htop⟩
  · cases hnone
  · have := htop.bounds
    have hwithin := hat'.within hdoc ht (k := i) (by omega) (by omega)
    exact hwithin.imp Eq.symm id

end Tree

end Outline

end Source

/-! ### The shape of a tree -/

namespace Tree

/-- Whether the node at a position is an argument. -/
def isArgument (t : Tree) (i : NodeId) : Bool := (t.node? i).any (·.kind == .argument)

/-- The tree has the shape of the text: one root that covers it, every span that of an interval
between character boundaries, spans nested and in order, nodes numbered in pre-order, and every
call bound to its argument nodes. -/
structure Shaped (t : Tree) (source : String) : Prop where
  roots_eq : t.roots = [0]
  root : ∃ n, t.node? 0 = some n ∧ n.kind = .compilationUnit ∧
    n.span = (LineIndex.ofCells (Cells.ofString source)).span ⟨0, source.utf8ByteSize⟩
  span_eq : ∀ i n, t.node? i = some n → ∃ r : Extent,
    n.span = (LineIndex.ofCells (Cells.ofString source)).span r ∧
    r.start ≤ r.stop ∧ r.stop ≤ source.utf8ByteSize ∧
    (Cells.ofString source).isBoundary r.start = true ∧
    (Cells.ofString source).isBoundary r.stop = true
  nodeText : ∀ i n, t.node? i = some n →
    t.nodeText? i = some ((Cells.ofString source).slice n.span.extent).text
  inside_parent : ∀ i p m n, t.parent? i = some p → t.node? p = some m → t.node? i = some n →
    m.span.contains n.span = true
  siblings_disjoint : ∀ i, (t.childIds i).Pairwise fun a b => ∀ m n, t.node? a = some m →
    t.node? b = some n → m.span.endByte ≤ n.span.startByte
  inPreorder : t.InPreorder
  descendants_interval : ∀ i < t.nodes.length, ∃ k, t.descendantsAndSelf i = List.range' i (k + 1)
  isSome_invocation : ∀ i n, t.node? i = some n →
    (n.invocation.isSome = true ↔ n.kind = .invocationExpression)
  bound_arguments : ∀ i n call, t.node? i = some n → n.invocation = some call →
    call.arguments.map (·.value) = ((t.childIds i).filter t.isArgument).map some

end Tree

namespace Source

open Outline

section Tree

variable {tree : Tree} {doc : Document} {o b : Outline} {p : Option Nat} {e : Entry} {i j : NodeId}
  (hdoc : Tree.ofDocument doc = .ok tree) (ht : tree.nodes = o.nodesFrom none 0)
include hdoc ht

theorem mem_childIds_iff (hi : o.At none 0 i p e b) :
    j ∈ tree.childIds i ↔ ∃ e' b', b.TopAt (i + 1) j e' b' := by
  have hordered := Tree.ordered_of_ofDocument hdoc
  rw [hordered.mem_childIds i j]
  constructor
  · intro hparent
    obtain ⟨e', b', htop, -⟩ := hi.of_parent? ht hparent
    exact ⟨e', b', htop⟩
  · rintro ⟨e', b', htop⟩
    rw [Tree.parent?, (hi.trans (htop.at (some i))).node?_eq ht]
    rfl

/-- **The argument nodes of a node, in order, are those that its call is bound to.** -/
theorem filter_isArgument_childIds (hi : o.At none 0 i p e b) :
    (tree.childIds i).filter tree.isArgument = b.argumentIds (i + 1) := by
  have hordered := Tree.ordered_of_ofDocument hdoc
  -- two increasing lists with the same members
  refine List.Pairwise.eq_of_mem_iff (r := (· < ·)) ?_ (pairwise_argumentIds b (i + 1)) ?_
  · exact (hordered.pairwise_childIds i).filter _
  · intro j
    rw [List.mem_filter, mem_childIds_iff hdoc ht hi, mem_argumentIds]
    constructor
    · rintro ⟨⟨e', b', htop⟩, hkind⟩
      rw [Tree.isArgument, (hi.trans (htop.at (some i))).node?_eq ht] at hkind
      exact ⟨e', b', htop, by simpa [toNode] using hkind⟩
    · rintro ⟨e', b', htop, hkind⟩
      refine ⟨⟨e', b', htop⟩, ?_⟩
      rw [Tree.isArgument, (hi.trans (htop.at (some i))).node?_eq ht]
      simpa [toNode] using hkind

end Tree

theorem map_value_invocationOf (target : TargetMethod × List (Option String)) (ids : List NodeId)
    (h : target.2.length = ids.length) :
    (invocationOf target ids).arguments.map (·.value) = ids.map some := by
  obtain ⟨method, parameters⟩ := target
  simp only [invocationOf, List.map_zipWith]
  induction parameters generalizing ids with
  | nil =>
    cases ids with
    | nil => rfl
    | cons id ids => cases h
  | cons parameter parameters ih =>
    cases ids with
    | nil => cases h
    | cons id ids => simpa using ih ids (by simpa using h)

section Nested

variable {tree : Tree} {source : String} {objects : Outline} {w : Extent}
  (hnodes : tree.nodes = (unitOutline source objects).nodesFrom none 0)
include hnodes

/-- Every node but the first has a parent. -/
theorem roots_eq_of_unitOutline : tree.roots = [0] := by
  have hroot : (unitOutline source objects).At none 0 0 none _ objects := .here
  have hsize : (unitOutline source objects).size = 1 + objects.size := rfl
  have hmem : ∀ j, j ∈ tree.roots ↔ j = 0 := by
    intro j
    rw [Tree.Ordered.mem_roots]
    constructor
    · rintro ⟨hlt, hnone⟩
      by_contra hne
      rw [hnodes, length_nodesFrom, hsize] at hlt
      obtain ⟨p, e, b, hat⟩ := objects.exists_at (some 0) 1 (i := j) (Nat.one_le_iff_ne_zero.mpr hne) hlt
      obtain ⟨q, rfl, -⟩ := hat.parent_bounds
      rw [Tree.parent?, (hroot.trans hat).node?_eq hnodes] at hnone
      cases hnone
    · rintro rfl
      have hnode := hroot.node?_eq hnodes
      refine ⟨(List.getElem?_eq_some_iff.mp hnode).1, ?_⟩
      rw [Tree.parent?, hnode]
      rfl
  refine List.Perm.eq_singleton
    ((List.perm_ext_iff_of_nodup Tree.Ordered.nodup_roots (by simp)).mpr ?_)
  intro j
  rw [hmem, List.mem_singleton]

variable {S : Cells} {t : Text} (hnested : (unitOutline source objects).Nested S t w)
include hnested

theorem contains_of_parent? {i q : NodeId} {m n : Node} (hparent : tree.parent? i = some q)
    (hm : tree.node? q = some m) (hn : tree.node? i = some n) : m.span.contains n.span = true := by
  obtain ⟨p, e, b, hat, rfl⟩ := exists_at_of_node? hnodes hm
  obtain ⟨e', b', htop, hat'⟩ := hat.of_parent? hnodes hparent
  obtain rfl := Option.some.inj (hn.symm.trans (hat'.node?_eq hnodes))
  obtain ⟨r, hr, -, hbelow⟩ := hnested.of_at hat
  obtain ⟨hstart, hstop⟩ := hbelow.of_topAt htop
  simp only [toNode, Span.contains, Bool.and_eq_true, decide_eq_true_eq, hr]
  exact ⟨hstart, hstop⟩

theorem siblings_of_nested {doc : Document} (hdoc : Tree.ofDocument doc = .ok tree) (i : NodeId) :
    (tree.childIds i).Pairwise fun a c => ∀ m n, tree.node? a = some m → tree.node? c = some n →
      m.span.endByte ≤ n.span.startByte := by
  have hordered := Tree.ordered_of_ofDocument hdoc
  by_cases hi : ∃ n, tree.node? i = some n
  · obtain ⟨n, hn⟩ := hi
    obtain ⟨p, e, b, hat, rfl⟩ := exists_at_of_node? hnodes hn
    obtain ⟨r, -, -, hbelow⟩ := hnested.of_at hat
    refine (hordered.pairwise_childIds i).imp_of_mem ?_
    intro a c ha hc hlt m n hm hn
    obtain ⟨e₁, b₁, htop₁⟩ := (mem_childIds_iff hdoc hnodes hat).mp ha
    obtain ⟨e₂, b₂, htop₂⟩ := (mem_childIds_iff hdoc hnodes hat).mp hc
    have hm' := (hat.trans (htop₁.at (some i))).node?_eq hnodes
    have hn' := (hat.trans (htop₂.at (some i))).node?_eq hnodes
    obtain rfl := Option.some.inj (hm.symm.trans hm')
    obtain rfl := Option.some.inj (hn.symm.trans hn')
    exact hbelow.topAt_order htop₁ htop₂ hlt
  · -- a position without a node has no children
    have hnone : tree.childIds i = [] := by
      rw [List.eq_nil_iff_forall_not_mem]
      intro j hj
      have hlt := (hordered.child_lt hj).1.trans (hordered.child_lt hj).2
      exact hi ⟨_, List.getElem?_eq_getElem hlt⟩
    rw [hnone]
    exact .nil

end Nested

/-- **The tree of every source text that resolves has the shape of the text.** -/
theorem shaped_of_resolve {path source : String} {tree : Tree}
    (h : resolve path source = .ok tree) : tree.source = some source ∧ tree.Shaped source := by
  obtain ⟨doc, objects, hdoc, hsource, hnodes, hnested, hfits⟩ := exists_nested_of_resolve h
  have hpre := inPreorder hdoc hnodes
  have hsource' : tree.source = some source := by
    rw [← hsource, ← (Tree.ofDocument_eq_ok_iff.mp hdoc).2.1]
  have hroot : (unitOutline source objects).At none 0 0 none _ objects := .here
  have hspan : ∀ {i n}, tree.node? i = some n → ∃ r,
      n.span = (LineIndex.ofCells (Cells.ofString source)).span r ∧
        (Cells.ofString source).Cuts r := by
    intro i n hn
    obtain ⟨p, e, b, hat, rfl⟩ := exists_at_of_node? hnodes hn
    obtain ⟨r, hr, hcuts, -⟩ := hnested.of_at hat
    exact ⟨r, hr, hcuts⟩
  refine ⟨hsource', {
    roots_eq := roots_eq_of_unitOutline hnodes
    root := ⟨_, hroot.node?_eq hnodes, rfl, rfl⟩
    span_eq := ?_
    nodeText := ?_
    inside_parent := fun i q m n => contains_of_parent? hnodes hnested
    siblings_disjoint := siblings_of_nested hnodes hnested hdoc
    inPreorder := hpre
    descendants_interval := (Tree.navigable_of_ofDocument hdoc).descendantsAndSelf_eq_range' hpre
    isSome_invocation := ?_
    bound_arguments := ?_ }⟩
  · intro i n hn
    obtain ⟨r, hr, hcuts⟩ := hspan hn
    exact ⟨r, hr, hcuts.le, Cells.length_ofString source ▸ hcuts.stop_le, hcuts.start, hcuts.stop⟩
  · intro i n hn
    obtain ⟨r, hr, hcuts⟩ := hspan hn
    have hextent : n.span.extent = r := by
      rw [hr]
      rfl
    simp only [Tree.nodeText?, hn, hsource', hextent, Cells.slice?, hcuts.le, hcuts.start,
      hcuts.stop, Option.bind_eq_bind, Option.bind_some, and_self, if_true]
  · intro i n hn
    obtain ⟨p, e, b, hat, rfl⟩ := exists_at_of_node? hnodes hn
    rw [show (toNode e p i b).kind = e.kind from rfl, (hfits.of_at hat).target]
    simp [toNode]
  · intro i n call hn hcall
    obtain ⟨p, e, b, hat, rfl⟩ := exists_at_of_node? hnodes hn
    obtain ⟨target, htarget, rfl⟩ := Option.map_eq_some_iff.mp hcall
    rw [filter_isArgument_childIds hdoc hnodes hat]
    apply map_value_invocationOf
    rw [length_argumentIds]
    exact (hfits.of_at hat).bound target htarget

/-- A trigger of a table with a comment and a quoted name outside ASCII, a call without a receiver
on the implicit record, a nested call, a named argument and an empty one. -/
def shapedSource : String :=
  "table 1 T\x7btrigger X()begin/*é*/Modify(\"ñ\".G(,1),A:=H())end;\x7d"

/-- The tree of the sample has its shape; below the call on the implicit record stand the record,
without a span of its own, and two arguments. -/
theorem shaped_shapedSource : ∃ tree, resolve "a.al" shapedSource = .ok tree ∧
    tree.Shaped shapedSource ∧ tree.nodes.length = 15 ∧
    (tree.node? 4).map (·.span.extent) = some ⟨32, 57⟩ ∧
    tree.childIds 4 = [5, 6, 13] := by
  have h : (resolve "a.al" shapedSource).toOption.any (fun tree => decide (
      tree.nodes.length = 15 ∧ (tree.node? 4).map (·.span.extent) = some ⟨32, 57⟩ ∧
        tree.childIds 4 = [5, 6, 13])) = true := by decide +kernel
  obtain ⟨tree, htree, h⟩ := exists_ok_of_any h
  exact ⟨tree, htree, (shaped_of_resolve htree).2, of_decide_eq_true h⟩

end Source
end TreeLint
