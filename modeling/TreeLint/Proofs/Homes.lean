/-
# The object that a node declares

The nodes of objects stand directly below the unit, and each is made from one
object of the source (`Source.Home`). So for every such node of a tree there is an
object with the node's symbol and span, and the nodes directly below it are those
of the object's routines, in their order.

Key definitions: `Outline.topIds`, `Outline.tops`, `Tree.ObjectOf`.
Key theorems: `Source.map_node?_childIds`, `Source.exists_home_of_topAt`,
`Source.exists_home_of_object`.
-/
import TreeLint.Proofs.Bodies

namespace TreeLint

/-- Only the unit holds objects, and nothing holds the unit. -/
theorem NodeKind.eq_unit_of_holds {k k' : NodeKind} (h : k.holds k' = true)
    (hk' : k' = .compilationUnit ∨ k' = .objectDeclaration) : k = .compilationUnit := by
  revert h
  rcases hk' with rfl | rfl
  · cases k <;> decide
  · cases k <;> decide

namespace Source

/-! ### The top of an outline -/

namespace Outline

variable {o : Outline} {first i : Nat}

/-- The positions of the nodes at the top of an outline whose first node has the position
`first`. -/
def topIds (first : NodeId) : Outline → List NodeId
  | .empty => []
  | .node _ below next => first :: next.topIds (first + 1 + below.size)

/-- The entries at the top of an outline. -/
def tops : Outline → List Entry
  | .empty => []
  | .node e _ next => e :: next.tops

theorem tops_append (o o' : Outline) : (o.append o').tops = o.tops ++ o'.tops := by
  induction o with
  | empty => rfl
  | node e below next _ ih => rw [append, tops, ih, tops, List.cons_append]

theorem mem_topIds : i ∈ o.topIds first ↔ ∃ e b, o.TopAt first i e b := by
  induction o generalizing first with
  | empty =>
    constructor
    · intro h
      cases h
    · rintro ⟨e, b, h⟩
      cases h
  | node e below next _ ih =>
    rw [topIds, List.mem_cons, ih]
    constructor
    · rintro (rfl | ⟨e', b, h⟩)
      · exact ⟨e, below, .here⟩
      · exact ⟨e', b, .later h⟩
    · rintro ⟨e', b, h⟩
      cases h with
      | here => exact Or.inl rfl
      | later h => exact Or.inr ⟨e', b, h⟩

theorem pairwise_topIds (o : Outline) (first : Nat) : (o.topIds first).Pairwise (· < ·) := by
  induction o generalizing first with
  | empty => exact .nil
  | node e below next _ ih =>
    refine List.pairwise_cons.mpr ⟨fun i hi => ?_, ih _⟩
    obtain ⟨e', b, htop⟩ := mem_topIds.mp hi
    exact Nat.lt_of_lt_of_le (by omega) htop.bounds.1

theorem map_topIds {α : Type} {f : NodeId → α} {g : Entry → α} {o : Outline} {first : Nat}
    (h : ∀ i e b, o.TopAt first i e b → f i = g e) : (o.topIds first).map f = o.tops.map g := by
  induction o generalizing first with
  | empty => rfl
  | node e below next _ ih =>
    rw [topIds, tops, List.map_cons, List.map_cons, h first e below .here,
      ih fun i e b htop => h i e b (.later htop)]

theorem All.of_topAt {P : Entry → Outline → Prop} {e : Entry} {b : Outline} (hall : o.All P)
    (htop : o.TopAt first i e b) : P e b ∧ b.All P := by
  induction htop with
  | here => exact ⟨hall.1, hall.2.1⟩
  | later _ ih => exact ih hall.2.2

end Outline

open Outline

/-- **The children of a node, in order, are the entries at the top of what is below it.** -/
theorem map_node?_childIds {tree : Tree} {doc : Document} {o b : Outline} {p : Option Nat}
    {e : Entry} {i : NodeId} (hdoc : Tree.ofDocument doc = .ok tree)
    (hnodes : tree.nodes = o.nodesFrom none 0) (hat : o.At none 0 i p e b) :
    (tree.childIds i).map (fun j => (tree.node? j).map fun n => (n.kind, n.span)) =
      b.tops.map fun x => some (x.kind, x.span) := by
  have hordered := Tree.ordered_of_ofDocument hdoc
  -- two increasing lists with the same members
  have hids : tree.childIds i = b.topIds (i + 1) := by
    refine List.Pairwise.eq_of_mem_iff (r := (· < ·)) (hordered.pairwise_childIds i)
      (pairwise_topIds b (i + 1)) fun j => ?_
    rw [mem_childIds_iff hdoc hnodes hat, mem_topIds]
  rw [hids]
  refine map_topIds fun j e' b' htop => ?_
  rw [(hat.trans (htop.at (some i))).node?_eq hnodes]
  rfl

/-! ### Objects -/

variable {t : Text} {symbols : List Symbol}

/-- An object holds no further one, nor does anything in it. -/
theorem ne_object_of_at {o b : Outline} {parent p : Option Nat} {first i : Nat} {e : Entry}
    (hfits : o.All (Entry.Fits t))
    (htop : o.TopAll fun x => x.kind ≠ .compilationUnit ∧ x.kind ≠ .objectDeclaration)
    (hat : o.At parent first i p e b) :
    e.kind ≠ .compilationUnit ∧ e.kind ≠ .objectDeclaration := by
  induction hat with
  | here => exact htop.1
  | inside _ ih =>
    refine ih hfits.2.1 (hfits.1.holds.mono fun x hx => ?_)
    exact ⟨fun h => htop.1.1 (NodeKind.eq_unit_of_holds hx (Or.inl h)),
      fun h => htop.1.1 (NodeKind.eq_unit_of_holds hx (Or.inr h))⟩
  | later _ ih => exact ih hfits.2.2 htop.2

theorem tops_resolveRoutines (object first : Nat) (globals : List Variable)
    (procedures : List String) (rs : List Routine) :
    (resolveRoutines t object globals procedures first rs).2.tops.map (fun x => (x.kind, x.span)) =
      rs.map fun r => (r.kind.nodeKind, t.span ⟨r.header, r.extent.stop⟩) := by
  induction rs generalizing first with
  | nil => rfl
  | cons r rs ih => rw [resolveRoutines, tops_append, List.map_append, ih, List.map_cons]; rfl

theorem Home.tops_outline (home : Home t symbols) :
    home.outline.tops.map (fun x => (x.kind, x.span)) =
      home.routines.map fun r => (r.kind.nodeKind, t.span ⟨r.header, r.extent.stop⟩) :=
  tops_resolveRoutines _ _ _ _ _

/-- **The nodes at the top of the outline of a text are those of objects.** -/
theorem exists_home_of_topAt {outline : Outline}
    (h : resolveObjects t 0 0 (objectHeader.all ⟨none, 0, t.bare⟩) = .ok (symbols, outline))
    {first i : Nat} {e : Entry} {b : Outline} (htop : outline.TopAt first i e b) :
    ∃ home : Home t symbols, e = home.entry ∧ b = home.outline := by
  suffices hall : (∀ x ∈ symbols, ∀ c : Nat, x.containing = some c → 0 ≤ c) ∧
      ∀ all, ClosedPart all 0 symbols → ∀ first i e b, outline.TopAt first i e b →
        ∃ home : Home t all, e = home.entry ∧ b = home.outline from
    hall.2 symbols (.all symbols) first i e b htop
  refine resolveObjects_rec (P := fun h => h ∈ objectHeader.all ⟨none, 0, t.bare⟩)
    (motive := fun _ (start : Nat) one outline =>
      (∀ x ∈ one, ∀ c : Nat, x.containing = some c → start ≤ c) ∧
        ∀ all, ClosedPart all start one → ∀ first i e b, outline.TopAt first i e b →
          ∃ home : Home t all, e = home.entry ∧ b = home.outline)
    (fun _ _ => ⟨List.forall_mem_nil _, fun _ _ _ _ _ _ htop => by cases htop⟩) ?_
    (fun _ hmem => hmem) h
  intro _ start header site one outline others outline' hheader _ hsite hobject ⟨hle, hrest⟩
  refine ⟨fun x hx c hc => ?_, fun all hpart first i e b htop => ?_⟩
  · rcases List.mem_append.mp hx with hx | hx
    · exact containing_resolveObject hobject hx hc
    · exact (Nat.le_add_right _ _).trans (hle x hx c hc)
  · have hone := hpart.left fun x hx c hc => Or.inr (hle x hx c hc)
    have hothers := hpart.right fun x hx c hc => (ordered_resolveObject hobject).containing_lt hx hc
    rcases htop.cases_append with htop | ⟨first', htop⟩
    · obtain ⟨home, -, -, rfl, -⟩ :=
        exists_home_of_resolveObject ⟨header, hheader, hsite⟩ hobject hone
      cases htop with
      | here => exact ⟨home, rfl, rfl⟩
      | later htop => cases htop
    · exact hrest all hothers first' i e b htop

end Source

/-- The node at `i` is that of an object: it has the object's symbol and span, and the nodes
directly below it are those of the object's routines, in their order. -/
structure Tree.ObjectOf (tree : Tree) {t : Source.Text} (home : Source.Home t tree.symbols)
    (i : NodeId) : Prop where
  node : ∃ n, tree.node? i = some n ∧ n.kind = .objectDeclaration ∧ n.symbol = some home.object ∧
    n.span = t.span ⟨home.site.start, home.site.closing + 1⟩
  routines : (tree.childIds i).map (fun j => (tree.node? j).map fun n => (n.kind, n.span)) =
    home.routines.map fun r => some (r.kind.nodeKind, t.span ⟨r.header, r.extent.stop⟩)

namespace Source

open Outline

/-- **Every node of an object is made from an object of the source.** -/
theorem exists_home_of_object {path source : String} {tree : Tree}
    (h : resolve path source = .ok tree) {i : NodeId} {n : Node} (hn : tree.node? i = some n)
    (hkind : n.kind = .objectDeclaration) :
    ∃ home : Home (Text.ofCells (Cells.ofString source)) tree.symbols, tree.ObjectOf home i := by
  obtain ⟨doc, objects, hdoc, -, hobjects, hnodes⟩ := exists_objects_of_resolve h
  have hfits := fits_unitOutline hobjects
  obtain ⟨p, e, below, hat, rfl⟩ := exists_at_of_node? hnodes hn
  have hkind : e.kind = .objectDeclaration := hkind
  -- only the unit holds objects, and nothing holds the unit
  obtain ⟨first, htop⟩ : ∃ first, objects.TopAt first i e below := by
    cases hat with
    | here => cases hkind
    | later hat => cases hat
    | inside hat =>
      rcases hat.cases_top with htop | ⟨j, e', b', htop, hbelow⟩
      · exact ⟨_, htop⟩
      · exfalso
        have hobject : e'.kind = .objectDeclaration :=
          beq_iff_eq.mp (hfits.1.holds.of_topAt htop)
        obtain ⟨hinner, hbelow'⟩ := hfits.2.1.of_topAt htop
        have hnot : e'.kind ≠ .compilationUnit := hobject ▸ nofun
        refine (ne_object_of_at hbelow' (hinner.holds.mono fun x hx => ?_) hbelow).2 hkind
        exact ⟨fun h => hnot (NodeKind.eq_unit_of_holds hx (Or.inl h)),
          fun h => hnot (NodeKind.eq_unit_of_holds hx (Or.inr h))⟩
  obtain ⟨home, rfl, rfl⟩ := exists_home_of_topAt hobjects htop
  refine ⟨home, ⟨_, hn, rfl, rfl, rfl⟩, ?_⟩
  rw [map_node?_childIds hdoc hnodes hat]
  simpa only [List.map_map, Function.comp_def] using congrArg (List.map some) home.tops_outline

end Source
end TreeLint
