/-
# The body that a node is in

Calls, arguments and operands stand below blocks only, and a block is made from
the body of one routine, with that routine's scope. So for each such node of a
tree there is one body (`Source.Body`) that the node, its receiver and its
operands were resolved in.

The symbols are followed together with the nodes: while the routines of an object,
and the objects of a text, are resolved one after the other, the symbols of each
are a closed part of all symbols, because what is declared later is declared in
symbols that come later too, or in the object itself if it is a routine.

Key definitions: `Source.Entry.Rooted`, `Source.Entry.Resolved`, `Tree.InBody`.
Key theorems: `Source.rooted_resolveObjects`, `Source.resolved_outlineCalls`,
`Source.Outline.exists_block_of_at`, `Source.exists_body_of_code`.
-/
import TreeLint.Proofs.CallTrees
import TreeLint.Proofs.Symbols

namespace TreeLint
namespace Source

open Outline

variable {t : Text} {symbols : List Symbol}

/-! ### Symbols of routines and objects -/

theorem containing_resolveRoutine {object first : Nat} {globals : List Variable}
    {procedures : List String} {r : Routine} {x : Symbol}
    (hx : x ∈ (resolveRoutine t object first globals procedures r).1) {c : Nat}
    (hc : x.containing = some c) : c = object ∨ c = first := by
  rw [fst_resolveRoutine] at hx
  rcases List.mem_cons.mp hx with rfl | hx
  · exact Or.inl (Option.some.inj hc).symm
  · obtain ⟨v, -, rfl⟩ := List.mem_map.mp hx
    exact Or.inr (Option.some.inj hc).symm

/-- What the routines of an object declare is declared in the object or in one of them. -/
theorem containing_resolveRoutines {object first : Nat} {globals : List Variable}
    {procedures : List String} {rs : List Routine} {x : Symbol}
    (hx : x ∈ (resolveRoutines t object globals procedures first rs).1) {c : Nat}
    (hc : x.containing = some c) : c = object ∨ first ≤ c := by
  induction rs generalizing first with
  | nil => cases hx
  | cons r rs ih =>
    rcases List.mem_append.mp hx with hx | hx
    · exact (containing_resolveRoutine hx hc).imp_right Eq.ge
    · exact (ih hx).imp_right fun hle => (Nat.le_add_right _ _).trans hle

theorem filter_resolveRoutines {object first : Nat} (hlt : object < first)
    (globals : List Variable) (procedures : List String) (rs : List Routine) :
    (resolveRoutines t object globals procedures first rs).1.filter (·.containing = some object) =
      rs.map (routineSymbol t object) := by
  induction rs generalizing first with
  | nil => rfl
  | cons r rs ih =>
    have hvariables : ((routineVariables t r first).map (Variable.toSymbol first)).filter
        (·.containing = some object) = [] := by
      rw [List.filter_eq_nil_iff]
      intro x hx hcontaining
      obtain ⟨v, -, rfl⟩ := List.mem_map.mp hx
      have heq : first = object := Option.some.inj (of_decide_eq_true hcontaining)
      omega
    rw [resolveRoutines, List.filter_append, ih (hlt.trans_le (Nat.le_add_right _ _)),
      fst_resolveRoutine, List.filter_cons_of_pos (by simp [routineSymbol]), hvariables]
    rfl

theorem containing_resolveObject {first : Nat} {o : ObjectSite} {one : List Symbol}
    {outline : Outline} (h : resolveObject t first o = .ok (one, outline)) {x : Symbol}
    (hx : x ∈ one) {c : Nat} (hc : x.containing = some c) : first ≤ c := by
  obtain ⟨rs, y, e, -, -, hnone, -, rfl, -⟩ := exists_of_resolveObject h
  rcases List.mem_append.mp hx with hx | hx
  · rcases List.mem_cons.mp hx with rfl | hx
    · rw [hnone] at hc
      cases hc
    · obtain ⟨v, -, rfl⟩ := List.mem_map.mp hx
      exact (Option.some.inj hc).le
  · rcases containing_resolveRoutines hx hc with rfl | hle
    · exact le_rfl
    · omega

/-- Where symbols come in order, none is declared in one that comes later. -/
theorem Ordered.containing_lt {first : Nat} {part : List Symbol} (h : Ordered first part)
    {x : Symbol} (hx : x ∈ part) {c : Nat} (hc : x.containing = some c) :
    c < first + part.length := by
  obtain ⟨i, hi⟩ := List.mem_iff_getElem?.mp hx
  have hlt : i < part.length := (List.getElem?_eq_some_iff.mp hi).1
  have := h i x c hi hc
  omega

end Source

/-- A kind of node that stands in the code of a body only. -/
def NodeKind.isCode (k : NodeKind) : Bool :=
  k == .invocationExpression || k == .argument || k.isOperand

theorem NodeKind.isCode_of_isOperand {k : NodeKind} (h : k.isOperand = true) : k.isCode = true := by
  rw [isCode, h, Bool.or_true]

theorem NodeKind.eq_block_or_isCode_of_holds {k k' : NodeKind} (h : k.holds k' = true)
    (hcode : k'.isCode = true) : k = .block ∨ k.isCode = true := by
  cases k <;> cases k' <;> simp_all [holds, isCode, isOperand]

namespace Source

/-! ### Code -/

section Code

variable {s : Scope} {calls : List Call}

/-- A node of a body: it belongs to the routine, a call has the target that the call found in the
body resolves to, its receiver and its arguments below it, an argument has below it its operand or
else calls, and there is nothing below an operand. -/
structure Entry.Resolved (t : Text) (s : Scope) (calls : List Call) (e : Entry)
    (below : Outline) : Prop where
  isCode : e.kind.isCode = true
  routine : e.containingSymbol = some s.routine
  call : e.kind = .invocationExpression → ∃ c ∈ calls, e.span = t.span c.extent ∧
    (∃ parameters, e.target = some (⟨c.method, (s.target t c).kind⟩, parameters)) ∧
    ∃ arguments, below = (receiverOutline t s c (s.target t c).receiver).append arguments ∧
      arguments.TopAll (·.kind = .argument)
  argument : e.kind = .argument →
    (∃ r, below = operandOutline t s r) ∨ below.TopAll (·.kind = .invocationExpression)
  operand : e.kind.isOperand = true → below = .empty

theorem resolved_operand (e : Entry) (h : e.kind.isOperand = true)
    (hroutine : e.containingSymbol = some s.routine) : e.Resolved t s calls .empty where
  isCode := NodeKind.isCode_of_isOperand h
  routine := hroutine
  call := fun hkind => by
    rw [hkind] at h
    cases h
  argument := fun hkind => by
    rw [hkind] at h
    cases h
  operand := fun _ => rfl

theorem resolved_argumentsOutline {later : List Call} {nested : Extent → Outline}
    (h : ∀ value, (nested value).All (Entry.Resolved t s calls))
    (htop : ∀ value, (nested value).TopAll (·.kind = .invocationExpression))
    (l : List (Option String × Extent × Extent)) :
    (argumentsOutline t s later nested l).All (Entry.Resolved t s calls) := by
  induction l with
  | nil => trivial
  | cons x rest ih =>
    obtain ⟨p, r, value⟩ := x
    rw [argumentsOutline]
    split
    · exact ⟨⟨rfl, rfl, by rintro ⟨⟩, fun _ => Or.inr (htop value), by rintro ⟨⟩⟩, h value, ih⟩
    · exact ⟨⟨rfl, rfl, by rintro ⟨⟩, fun _ => Or.inl ⟨value, rfl⟩, by rintro ⟨⟩⟩,
        all_operandOutline_operand resolved_operand value, ih⟩

theorem resolved_outlineCalls {all : List Call} (hsub : ∀ c ∈ calls, c ∈ all) (w : Extent) :
    (outlineCalls t s calls w).All (Entry.Resolved t s all) := by
  induction calls generalizing w with
  | nil => trivial
  | cons call later ih =>
    have hlater : ∀ w, (outlineCalls t s later w).All (Entry.Resolved t s all) :=
      ih fun c hc => hsub c (List.mem_cons_of_mem _ hc)
    rw [outlineCalls]
    split
    · exact hlater w
    · refine ⟨⟨rfl, rfl, fun _ => ?_, by rintro ⟨⟩, by rintro ⟨⟩⟩, ?_, hlater _⟩
      · exact ⟨call, hsub call List.mem_cons_self, rfl, ⟨_, rfl⟩, _, rfl, topAll_argumentsOutline _ _ _⟩
      · exact (all_receiverOutline_operand resolved_operand _ _).append
          (resolved_argumentsOutline hlater (topAll_outlineCalls later) _)

end Code

/-! ### Blocks -/

/-- The nodes directly below a routine belong to the routine's symbol, and a block is made from a
body. -/
structure Entry.Rooted (t : Text) (symbols : List Symbol) (e : Entry) (below : Outline) : Prop where
  routine : NodeKind.objectDeclaration.holds e.kind = true →
    below.TopAll (·.containingSymbol = e.symbol)
  block : e.kind = .block → ∃ b : Body t symbols, e.span = t.span b.extent ∧
    e.containingSymbol = some b.owner ∧ below = outlineCalls t b.scope (t.calls b.extent) b.extent

theorem Entry.Rooted.of_ne {e : Entry} {below : Outline}
    (hroutine : NodeKind.objectDeclaration.holds e.kind = false) (hblock : e.kind ≠ .block) :
    e.Rooted t symbols below where
  routine := fun h => absurd (hroutine.symm.trans h) Bool.false_ne_true
  block := fun h => absurd h hblock

theorem Entry.Resolved.rooted {s : Scope} {calls : List Call} {e : Entry} {below : Outline}
    (h : e.Resolved t s calls below) : e.Rooted t symbols below := by
  have hcode := h.isCode
  apply Rooted.of_ne
  · revert hcode
    cases e.kind <;> decide
  · intro hblock
    rw [hblock] at hcode
    cases hcode

theorem Outline.All.mono {P Q : Entry → Outline → Prop} {o : Outline} (h : o.All P)
    (hPQ : ∀ e below, P e below → Q e below) : o.All Q := by
  induction o with
  | empty => trivial
  | node e below next ihbelow ihnext => exact ⟨hPQ e below h.1, ihbelow h.2.1, ihnext h.2.2⟩

section Home

variable (home : Home t symbols)

/-- What an object resolves its routines with. -/
abbrev Home.resolveRoutines (first : Nat) (rs : List Routine) : List Symbol × Outline :=
  Source.resolveRoutines t home.object (objectVariables t home.site home.routines home.object)
    (procedureNames t home.routines) first rs

/-- The block of a routine of an object is made from the routine's body. -/
theorem rooted_resolveRoutine {first : Nat} (hlt : home.object < first) {r : Routine}
    (hr : r ∈ home.routines)
    (hpart : ClosedPart symbols first (routineSymbol t home.object r ::
      (routineVariables t r first).map (Variable.toSymbol first))) :
    (resolveRoutine t home.object first
      (objectVariables t home.site home.routines home.object) (procedureNames t home.routines)
      r).2.All (Entry.Rooted t symbols) := by
  have hkind : r.kind.nodeKind ≠ .block := r.kind.nodeKind_cases.1.2
  unfold resolveRoutine
  cases hbody : r.body with
  | none => exact .single ⟨fun _ => trivial, fun h => absurd h hkind⟩ trivial
  | some extent =>
    let b : Body t symbols := ⟨home, r, extent, first, hlt, hr, hbody, hpart⟩
    refine .single ⟨fun _ => ⟨rfl, trivial⟩, fun h => absurd h hkind⟩ (.single ?_ ?_)
    · exact ⟨nofun, fun _ => ⟨b, rfl, rfl, rfl⟩⟩
    · exact (resolved_outlineCalls (fun _ hc => hc) extent).mono fun _ _ h => h.rooted

theorem rooted_resolveRoutines {first : Nat} (hlt : home.object < first) {rs : List Routine}
    (hrs : ∀ r ∈ rs, r ∈ home.routines)
    (hpart : ClosedPart symbols first (home.resolveRoutines first rs).1) :
    (home.resolveRoutines first rs).2.All (Entry.Rooted t symbols) := by
  induction rs generalizing first with
  | nil => trivial
  | cons r rs ih =>
    have hordered := ordered_resolveRoutine (t := t) hlt
      (objectVariables t home.site home.routines home.object) (procedureNames t home.routines) r
    rw [Home.resolveRoutines, resolveRoutines] at hpart
    -- later routines declare in the object or in themselves
    have hone := hpart.left fun x hx c hc =>
      (containing_resolveRoutines hx hc).imp_left fun heq => heq.trans_lt hlt
    have hrest := hpart.right fun x hx c hc => hordered.containing_lt hx hc
    refine (rooted_resolveRoutine home hlt (hrs r List.mem_cons_self) hone).append ?_
    exact ih (hlt.trans_le (Nat.le_add_right _ _)) (fun r' hr' => hrs r' (List.mem_cons_of_mem _ hr'))
      hrest

end Home

/-- The nodes of the routines of an object. -/
def Home.outline (home : Home t symbols) : Outline :=
  (home.resolveRoutines (home.object + 1 + home.globals.length) home.routines).2

/-- The node of an object. -/
def Home.entry (home : Home t symbols) : Entry :=
  { plainEntry .objectDeclaration (t.span ⟨home.site.start, home.site.closing + 1⟩) home.object with
    symbol := some home.object }

/-- **What an object resolves to** is its node, with the nodes of its routines below it; the symbols
of the routines are a part of its own. -/
theorem exists_home_of_resolveObject {first : Nat} {o : ObjectSite} {one : List Symbol}
    {outline : Outline} (hsite : ∃ h ∈ objectHeader.all ⟨none, 0, t.bare⟩, objectSite t h = .ok o)
    (h : resolveObject t first o = .ok (one, outline)) (hpart : ClosedPart symbols first one) :
    ∃ home : Home t symbols, home.object = first ∧ home.site = o ∧
      outline = .single home.entry home.outline ∧
      ClosedPart symbols (home.object + 1 + home.globals.length)
        (home.resolveRoutines (home.object + 1 + home.globals.length) home.routines).1 := by
  obtain ⟨rs, x, e, hrs, hkind, hnone, rfl, rfl, rfl⟩ := exists_of_resolveObject h
  have hlt : first < first + 1 + (objectVariables t o rs first).length := by omega
  have hvariables : ∀ y ∈ x :: (objectVariables t o rs first).map (Variable.toSymbol first),
      ∀ c : Nat, y.containing = some c →
        c < first + (x :: (objectVariables t o rs first).map (Variable.toSymbol first)).length := by
    intro y hy c hc
    refine Ordered.containing_lt ?_ hy hc
    refine .cons (fun c hc => ?_) (ordered_toSymbol (Nat.lt_succ_self first) _)
    rw [hnone] at hc
    cases hc
  have hlength : first + (x :: (objectVariables t o rs first).map (Variable.toSymbol first)).length =
      first + 1 + (objectVariables t o rs first).length := by
    rw [List.length_cons, List.length_map]
    omega
  have hroutines := hpart.right hvariables
  rw [hlength] at hroutines
  exact ⟨⟨o, rs, first, hsite, hrs, x, _, hkind, hnone, hpart, filter_resolveRoutines hlt _ _ rs⟩,
    rfl, rfl, rfl, hroutines⟩

theorem rooted_resolveObject {first : Nat} {o : ObjectSite} {one : List Symbol} {outline : Outline}
    (hsite : ∃ h ∈ objectHeader.all ⟨none, 0, t.bare⟩, objectSite t h = .ok o)
    (h : resolveObject t first o = .ok (one, outline)) (hpart : ClosedPart symbols first one) :
    outline.All (Entry.Rooted t symbols) := by
  obtain ⟨home, -, -, rfl, hroutines⟩ := exists_home_of_resolveObject hsite h hpart
  have hlt : home.object < home.object + 1 + home.globals.length := by omega
  exact .single (.of_ne rfl nofun) (rooted_resolveRoutines home hlt (fun r hr => hr) hroutines)

/-- **The blocks of a text are made from bodies.** -/
theorem rooted_resolveObjects {outline : Outline}
    (h : resolveObjects t 0 0 (objectHeader.all ⟨none, 0, t.bare⟩) = .ok (symbols, outline)) :
    outline.All (Entry.Rooted t symbols) := by
  suffices hall : (∀ x ∈ symbols, ∀ c : Nat, x.containing = some c → 0 ≤ c) ∧
      ∀ all, ClosedPart all 0 symbols → outline.All (Entry.Rooted t all) from
    hall.2 symbols (.all symbols)
  refine resolveObjects_rec (P := fun h => h ∈ objectHeader.all ⟨none, 0, t.bare⟩)
    (motive := fun _ (first : Nat) one outline =>
      (∀ x ∈ one, ∀ c : Nat, x.containing = some c → first ≤ c) ∧
        ∀ all, ClosedPart all first one → outline.All (Entry.Rooted t all))
    (fun _ _ => ⟨List.forall_mem_nil _, fun _ _ => trivial⟩) ?_ (fun _ hmem => hmem) h
  intro _ first header site one outline others outline' hheader _ hsite hobject ⟨hle, hrest⟩
  refine ⟨fun x hx c hc => ?_, fun all hpart => ?_⟩
  · rcases List.mem_append.mp hx with hx | hx
    · exact containing_resolveObject hobject hx hc
    · exact (Nat.le_add_right _ _).trans (hle x hx c hc)
  · have hone := hpart.left fun x hx c hc => Or.inr (hle x hx c hc)
    have hothers := hpart.right fun x hx c hc => (ordered_resolveObject hobject).containing_lt hx hc
    exact (rooted_resolveObject ⟨header, hheader, hsite⟩ hobject hone).append (hrest all hothers)

theorem Body.cuts {S : Cells} (ht : t.Copies S) (b : Body t symbols) : S.Cuts b.extent := by
  obtain ⟨h, hmem, hsite⟩ := b.site_of_header
  obtain ⟨hplaced, -⟩ := placed_objectSite ht (foundFrom_of_mem_headers ht hmem) hsite
  obtain ⟨hroutines, -⟩ := placed_routines ht hplaced.members b.routines_eq
  exact ((hroutines b.routine b.routine_mem).body b.extent b.extent_eq).1

/-! ### The block above a node -/

/-- **Code stands below a block**, unless it stands at the top. -/
theorem Outline.exists_block_of_at {o b : Outline} {parent p : Option Nat} {first i : Nat}
    {e : Entry} (hfits : o.All (Entry.Fits t)) (hat : o.At parent first i p e b)
    (hcode : e.kind.isCode = true) :
    (∃ k x y, o.TopAt first k x y ∧ x.kind.isCode = true) ∨
      ∃ j q x y, o.At parent first j q x y ∧ x.kind = .block ∧ y.At (some j) (j + 1) i p e b := by
  induction hat with
  | here => exact Or.inl ⟨_, _, _, .here, hcode⟩
  | @inside e e' b b' next parent p first i hat ih =>
    rcases ih hfits.2.1 hcode with ⟨k, x, y, htop, hx⟩ | ⟨j, q, x, y, hj, hx, hy⟩
    · have hholds := hfits.1.holds.of_topAt htop
      rcases NodeKind.eq_block_or_isCode_of_holds hholds hx with hblock | hcode'
      · exact Or.inr ⟨first, parent, e', b', .here, hblock, hat⟩
      · exact Or.inl ⟨first, e', b', .here, hcode'⟩
    · exact Or.inr ⟨j, q, x, y, .inside hj, hx, hy⟩
  | later _ ih =>
    rcases ih hfits.2.2 hcode with ⟨k, x, y, htop, hx⟩ | ⟨j, q, x, y, hj, hx, hy⟩
    · exact Or.inl ⟨k, x, y, .later htop, hx⟩
    · exact Or.inr ⟨j, q, x, y, .later hj, hx, hy⟩

end Source

/-- The node at `j` is the block of a body: it has the body's span, its parent is the node of the
body's routine, and below it are the nodes of the calls of the body. -/
structure Tree.BlockOf (tree : Tree) {t : Source.Text} (b : Source.Body t tree.symbols)
    (j : NodeId) : Prop where
  block : ∃ m, tree.node? j = some m ∧ m.kind = .block ∧ m.span = t.span b.extent
  routine : ∃ k r, tree.parent? j = some k ∧ tree.node? k = some r ∧
    (r.kind = .methodDeclaration ∨ r.kind = .triggerDeclaration) ∧ r.symbol = some b.owner
  below : ∃ (o : Source.Outline) (p : Option Nat) (e : Source.Entry),
    tree.nodes = o.nodesFrom none 0 ∧
      o.At none 0 j p e (Source.outlineCalls t b.scope (t.calls b.extent) b.extent)

namespace Source

open Outline

section BlockOf

variable {tree : Tree} {b : Body t tree.symbols} {i j : Nat} {p : Option Nat} {e : Entry}
  {below : Outline} (hblock : tree.BlockOf b j)
  (hat : (outlineCalls t b.scope (t.calls b.extent) b.extent).At (some j) (j + 1) i p e below)
include hblock hat

theorem node?_of_blockOf : tree.node? i = some (toNode e p i below) := by
  obtain ⟨o, p', e', hnodes, hj⟩ := hblock.below
  exact (hj.trans hat).node?_eq hnodes

theorem childOf_iff_of_blockOf {doc : Document} (hdoc : Tree.ofDocument doc = .ok tree) {k : Nat} :
    tree.ChildOf i k ↔ ∃ e' b', below.TopAt (i + 1) k e' b' := by
  obtain ⟨o, p', e', hnodes, hj⟩ := hblock.below
  exact mem_childIds_iff hdoc hnodes (hj.trans hat)

end BlockOf

/-- **Every node of code is in the body of one block.** It is a node of the outline that the calls
of the body give, and below the block. -/
theorem exists_body_of_code {path source : String} {tree : Tree}
    (h : resolve path source = .ok tree) {i : NodeId} {n : Node} (hn : tree.node? i = some n)
    (hcode : n.kind.isCode = true) :
    let t := Text.ofCells (Cells.ofString source)
    ∃ (b : Body t tree.symbols) (j : NodeId), tree.BlockOf b j ∧ j ∈ tree.ancestors i ∧
      ∃ p e below, (outlineCalls t b.scope (t.calls b.extent) b.extent).At (some j) (j + 1)
        i p e below ∧ n = toNode e p i below := by
  intro t
  obtain ⟨doc, objects, hdoc, -, hobjects, hnodes⟩ := exists_objects_of_resolve h
  have hfits := fits_unitOutline hobjects
  have hrooted : (unitOutline source objects).All (Entry.Rooted t tree.symbols) :=
    .single (.of_ne rfl (by rintro ⟨⟩)) (rooted_resolveObjects hobjects)
  obtain ⟨p, e, below, hat, rfl⟩ := exists_at_of_node? hnodes hn
  obtain ⟨j, q, x, y, hj, hblock, hy⟩ :
      ∃ j q x y, (unitOutline source objects).At none 0 j q x y ∧ x.kind = .block ∧
        y.At (some j) (j + 1) i p e below := by
    rcases exists_block_of_at hfits hat hcode with ⟨k, x, y, htop, hx⟩ | hfound
    · -- at the top there is the unit only
      cases htop with
      | here => cases hx
      | later htop => cases htop
    · exact hfound
  obtain ⟨b, hspan, howner, rfl⟩ := (hrooted.of_at hj).block hblock
  obtain ⟨k, rfl⟩ : ∃ k, q = some k := by
    cases hj with
    | here => cases hblock
    | inside hj =>
      obtain ⟨k, hk, -⟩ := hj.parent_bounds
      exact ⟨k, hk⟩
    | later hj => cases hj
  obtain ⟨p', e', b', hk, htop⟩ := hj.cases_parent.resolve_left nofun
  have hholds : e'.kind.holds .block = true := hblock ▸ (hfits.of_at hk).holds.of_topAt htop
  have hkind : e'.kind = .methodDeclaration ∨ e'.kind = .triggerDeclaration := by
    revert hholds
    cases e'.kind <;> decide
  have hdeclaration : NodeKind.objectDeclaration.holds e'.kind = true := by
    rcases hkind with hkind | hkind <;> rw [hkind] <;> rfl
  have hsymbol : x.containingSymbol = e'.symbol :=
    ((hrooted.of_at hk).routine hdeclaration).of_topAt htop
  refine ⟨b, j, ⟨⟨_, hj.node?_eq hnodes, hblock, hspan⟩, ?_, ⟨_, _, _, hnodes, hj⟩⟩, ?_,
    p, e, below, hy, rfl⟩
  · exact ⟨k, _, parent?_of_at hnodes hj, hk.node?_eq hnodes, hkind, hsymbol.symm.trans howner⟩
  · have hbounds := hy.bounds
    exact (hj.within hdoc hnodes (k := i) (by omega) (by omega)).resolve_left (Nat.ne_of_gt hbounds.1)

end Source
end TreeLint
