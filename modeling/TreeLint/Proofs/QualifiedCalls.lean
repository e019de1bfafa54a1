/-
# Calls behind a dot

The head of a call has one name before its parenthesis, or two with a dot between
them. What stands before that is not looked at. So a call whose receiver is an
expression, or a name that is itself a member, is resolved by its head alone: as a
global method, as a method of the implicit record, or on the variable that happens
to have the name before the last dot.

When this happens depends on the names in the head and on what the routine and its
object declare, and on nothing else (`Source.resolvedAsUnqualified_iff`). A call
behind a dot is no exception (`Dispatcher.qualified_calls_reported`).

Key definitions: `Source.Text.behindDot`, `Tree.CallsGlobal`,
`Tree.CallsOnImplicitRecord`, `Tree.CallsOnVariable`.
Key theorems: `Source.receiver?_iff_of_blockOf`, `Source.resolvedAsUnqualified_iff`.
-/
import TreeLint.Proofs.Scoping

namespace TreeLint

/-- Whether the last byte before a position that is no blank, in the text without comments, strings
and quoted names, is a dot. -/
def Source.Text.behindDot (t : Source.Text) (pos : Nat) : Bool :=
  ((t.bare.take pos).reverse.find? fun x => !x.isBlank).any (·.char == '.')

namespace Tree

/-- The names of the procedures of an object. -/
def proceduresIn (t : Tree) (object : SymbolId) : List String :=
  ((t.symbols.filter (·.containing = some object)).filter (·.kind = .method)).map (·.name)

/-- The call at a node is one of a built-in method and has no receiver. -/
def CallsGlobal (t : Tree) (i : NodeId) (n : Node) : Prop :=
  t.receiver? i = none ∧ n.invocation.map (·.method.kind) = some .builtInMethod

/-- The receiver of the call at a node is a variable that is not written. -/
def CallsOnImplicitRecord (t : Tree) (i : NodeId) : Prop :=
  ∃ x ∈ (t.receiver? i).bind t.node?, x.kind.isReference = true ∧ x.span.startByte = x.span.endByte

/-- The receiver of the call at a node is written and refers to the symbol `s`. -/
def CallsOnVariable (t : Tree) (i : NodeId) (s : SymbolId) : Prop :=
  ∃ x ∈ (t.receiver? i).bind t.node?, x.kind.isReference = true ∧
    x.span.startByte < x.span.endByte ∧ x.symbol = some s

instance (t : Tree) (i : NodeId) (n : Node) : Decidable (t.CallsGlobal i n) :=
  inferInstanceAs (Decidable (_ ∧ _))

instance (t : Tree) (i : NodeId) : Decidable (t.CallsOnImplicitRecord i) :=
  inferInstanceAs (Decidable (∃ x ∈ (t.receiver? i).bind t.node?, _))

instance (t : Tree) (i : NodeId) (s : SymbolId) : Decidable (t.CallsOnVariable i s) :=
  inferInstanceAs (Decidable (∃ x ∈ (t.receiver? i).bind t.node?, _))

end Tree

namespace Source

open Outline

variable {t : Text} {s : Scope} {call : Call}

/-! ### The receiver of a call in a body -/

theorem Outline.TopAt.append_left {o o' b : Outline} {first i : Nat} {e : Entry}
    (h : o.TopAt first i e b) : (o.append o').TopAt first i e b := by
  induction h with
  | here => exact .here
  | later _ ih => exact .later ih

theorem exists_single_of_ne_absent (t : Text) (s : Scope) (call : Call) {r : Receiver}
    (h : r ≠ .absent) : ∃ e, receiverOutline t s call r = .single e .empty := by
  cases r with
  | absent => exact absurd rfl h
  | declared v place | implicit v | static kind place | unknown place => exact ⟨_, rfl⟩

theorem Variable.isReference_referenceKind (v : Variable) : v.referenceKind.isReference = true := by
  unfold referenceKind
  split <;> rfl

theorem exists_single_empty_iff {r : Receiver}
    (hplace : ∀ v place, r = .declared v place → place.start < place.stop) :
    (∃ e, receiverOutline t s call r = .single e .empty ∧ e.kind.isReference = true ∧
      e.span.startByte = e.span.endByte) ↔ ∃ v, r = .implicit v := by
  constructor
  · rintro ⟨e, hsingle, hkind, hempty⟩
    cases r with
    | absent => cases hsingle
    | declared v place =>
      cases hsingle
      exact absurd hempty (Nat.ne_of_lt (hplace v place rfl))
    | implicit v => exact ⟨v, rfl⟩
    | static kind place | unknown place =>
      cases hsingle
      cases hkind
  · rintro ⟨v, rfl⟩
    exact ⟨_, rfl, v.isReference_referenceKind, rfl⟩

theorem exists_single_nonempty_iff {r : Receiver} {k : SymbolId}
    (hplace : ∀ v place, r = .declared v place → place.start < place.stop) :
    (∃ e, receiverOutline t s call r = .single e .empty ∧ e.kind.isReference = true ∧
      e.span.startByte < e.span.endByte ∧ e.symbol = some k) ↔
      ∃ v place, r = .declared v place ∧ v.symbol = k := by
  constructor
  · rintro ⟨e, hsingle, hkind, hlt, hsymbol⟩
    cases r with
    | absent => cases hsingle
    | declared v place =>
      cases hsingle
      exact ⟨v, place, rfl, Option.some.inj hsymbol⟩
    | implicit v =>
      cases hsingle
      exact absurd hlt (Nat.lt_irrefl call.extent.start)
    | static kind place | unknown place =>
      cases hsingle
      cases hkind
  · rintro ⟨v, place, rfl, rfl⟩
    exact ⟨_, rfl, v.isReference_referenceKind, hplace v place rfl, rfl⟩

section Calls

variable {tree : Tree} {b : Body t tree.symbols} {i j k : Nat} {p : Option Nat} {e : Entry}
  {arguments : Outline} (hblock : tree.BlockOf b j)
  (hat : (outlineCalls t b.scope (t.calls b.extent) b.extent).At (some j) (j + 1) i p e
    ((receiverOutline t b.scope call (b.scope.target t call).receiver).append arguments))
  (harguments : arguments.TopAll (·.kind = .argument))
include hblock hat harguments

/-- **The receiver of a call of a body** is the node made for the receiver of its target. -/
theorem receiver?_iff_of_blockOf {path source : String} (h : resolve path source = .ok tree)
    (hkind : e.kind = .invocationExpression) :
    tree.receiver? i = some k ↔ ∃ e' b',
      (receiverOutline t b.scope call (b.scope.target t call).receiver).TopAt (i + 1) k e' b' ∧
        tree.node? k = some (toNode e' (some i) k b') := by
  obtain ⟨doc, o, hdoc, hnodes, hall⟩ := exists_outline_of_resolve h
  have hnode := node?_of_blockOf hblock hat
  have hbelow : ∀ {k e' b'}, ((receiverOutline t b.scope call
      (b.scope.target t call).receiver).append arguments).TopAt (i + 1) k e' b' →
      tree.node? k = some (toNode e' (some i) k b') :=
    fun htop => node?_of_blockOf hblock (hat.trans (htop.at (some i)))
  rw [receiver?_eq_some_iff hdoc hnodes hall hnode hkind, childOf_iff_of_blockOf hblock hat hdoc]
  constructor
  · rintro ⟨⟨e', b', htop⟩, x, hx, hnot⟩
    obtain rfl := Option.some.inj (hx.symm.trans (hbelow htop))
    rcases htop.cases_append with hreceiver | ⟨first, hargument⟩
    · exact ⟨e', b', hreceiver, hx⟩
    · exact absurd (harguments.of_topAt hargument) hnot
  · rintro ⟨e', b', htop, hx⟩
    have hoperand : e'.kind.isOperand = true :=
      (operandOnly_receiverOutline (t := t) call _).top.of_topAt htop
    refine ⟨⟨e', b', htop.append_left⟩, _, hx, fun hargument => ?_⟩
    rw [show e'.kind = .argument from hargument] at hoperand
    cases hoperand

theorem receiver?_eq_none_iff {path source : String} (h : resolve path source = .ok tree)
    (hkind : e.kind = .invocationExpression) :
    tree.receiver? i = none ↔ (b.scope.target t call).receiver = .absent := by
  have hsome := fun k => receiver?_iff_of_blockOf hblock hat harguments h hkind (k := k)
  rw [Option.eq_none_iff_forall_ne_some]
  constructor
  · intro hnone
    by_contra hne
    obtain ⟨e', hsingle⟩ := exists_single_of_ne_absent t b.scope call hne
    refine hnone (i + 1) ((hsome (i + 1)).mpr ⟨e', .empty, hsingle ▸ .here, ?_⟩)
    exact node?_of_blockOf hblock
      (hat.trans ((TopAt.append_left (hsingle ▸ .here)).at (some i)))
  · intro habsent k hk
    obtain ⟨e', b', htop, -⟩ := (hsome k).mp hk
    rw [habsent] at htop
    cases htop

theorem exists_receiver_iff {path source : String} (h : resolve path source = .ok tree)
    (hkind : e.kind = .invocationExpression) {P : Node → Prop} :
    (∃ x ∈ (tree.receiver? i).bind tree.node?, P x) ↔ ∃ e',
      receiverOutline t b.scope call (b.scope.target t call).receiver = .single e' .empty ∧
        P (toNode e' (some i) (i + 1) .empty) := by
  have hsome := fun k => receiver?_iff_of_blockOf hblock hat harguments h hkind (k := k)
  constructor
  · rintro ⟨x, hmem, hP⟩
    obtain ⟨m, hm, hx⟩ := Option.bind_eq_some_iff.mp hmem
    obtain ⟨e', b', htop, hnode⟩ := (hsome m).mp hm
    obtain rfl := Option.some.inj (hx.symm.trans hnode)
    by_cases habsent : (b.scope.target t call).receiver = .absent
    · rw [habsent] at htop
      cases htop
    · obtain ⟨e'', hsingle⟩ := exists_single_of_ne_absent t b.scope call habsent
      rw [hsingle] at htop
      cases htop with
      | here => exact ⟨e', hsingle, hP⟩
      | later htop => cases htop
  · rintro ⟨e', hsingle, hP⟩
    have hnode : tree.node? (i + 1) = some (toNode e' (some i) (i + 1) .empty) :=
      node?_of_blockOf hblock (hat.trans ((TopAt.append_left (hsingle ▸ .here)).at (some i)))
    have hreceiver : tree.receiver? i = some (i + 1) :=
      (hsome (i + 1)).mpr ⟨e', .empty, hsingle ▸ .here, hnode⟩
    exact ⟨_, Option.bind_eq_some_iff.mpr ⟨i + 1, hreceiver, hnode⟩, hP⟩

theorem callsGlobal_iff {path source : String} (h : resolve path source = .ok tree)
    (hkind : e.kind = .invocationExpression) {parameters : List (Option String)}
    (htarget : e.target = some (⟨call.method, (b.scope.target t call).kind⟩, parameters))
    (below : Outline) :
    tree.CallsGlobal i (toNode e p i below) ↔ call.Unclaimed (tree.proceduresIn b.object) ∧
      (globalMethods.lookup (Name.lower call.method)).isSome = true := by
  have hmethod : (toNode e p i below).invocation.map (·.method.kind) =
      some (b.scope.target t call).kind := by
    rw [toNode, htarget]
    rfl
  have hprocedures : tree.proceduresIn b.object = b.scope.procedures := b.map_name_procedures
  rw [Tree.CallsGlobal, receiver?_eq_none_iff hblock hat harguments h hkind, hmethod,
    Option.some.injEq, and_comm, target_absent_iff, hprocedures]

variable (hplace : ∀ r, call.receiver = some r → r.start < r.stop)
include hplace

theorem callsOnImplicitRecord_iff {path source : String} (h : resolve path source = .ok tree)
    (hkind : e.kind = .invocationExpression) :
    tree.CallsOnImplicitRecord i ↔ call.Unclaimed (tree.proceduresIn b.object) ∧
      globalMethods.lookup (Name.lower call.method) = none ∧
      (recordTable? t b.site).isSome = true ∧
      (recordMethods.lookup (Name.lower call.method)).isSome = true := by
  have hprocedures : tree.proceduresIn b.object = b.scope.procedures := b.map_name_procedures
  have hrecord : (recordTable? t b.site).isSome = true ↔
      ∃ v, b.scope.implicitRecord? = some v := by
    rw [b.implicitRecord?_eq, ← Option.isSome_iff_exists, Option.isSome_map]
  rw [Tree.CallsOnImplicitRecord, exists_receiver_iff hblock hat harguments h hkind, hrecord,
    hprocedures]
  refine (exists_single_empty_iff fun v place hdeclared =>
    hplace place (target_declared_iff.mp hdeclared).1).trans ?_
  constructor
  · rintro ⟨v, himplicit⟩
    obtain ⟨hunclaimed, hglobal, hv, hmethod⟩ := target_implicit_iff.mp himplicit
    exact ⟨hunclaimed, hglobal, ⟨v, hv⟩, hmethod⟩
  · rintro ⟨hunclaimed, hglobal, ⟨v, hv⟩, hmethod⟩
    exact ⟨v, target_implicit_iff.mpr ⟨hunclaimed, hglobal, hv, hmethod⟩⟩

theorem callsOnVariable_iff {path source : String} (h : resolve path source = .ok tree)
    (hkind : e.kind = .invocationExpression) (k : SymbolId) :
    tree.CallsOnVariable i k ↔ ∃ r, call.receiver = some r ∧
      tree.lookup? b.owner b.object (t.name r) = some k := by
  rw [Tree.CallsOnVariable, exists_receiver_iff hblock hat harguments h hkind]
  refine (exists_single_nonempty_iff fun v place hdeclared =>
    hplace place (target_declared_iff.mp hdeclared).1).trans ?_
  simp only [b.lookup?_eq rfl, Option.map_eq_some_iff]
  constructor
  · rintro ⟨v, r, hdeclared, hk⟩
    obtain ⟨hr, hv⟩ := target_declared_iff.mp hdeclared
    exact ⟨r, hr, v, hv, hk⟩
  · rintro ⟨r, hr, v, hv, hk⟩
    exact ⟨v, r, target_declared_iff.mpr ⟨hr, hv⟩, hk⟩

end Calls

/-- **What decides whether a call is resolved as an unqualified one.** Every call in the tree of a
source text that resolves is found in a body, and it is one of a global method, of a method of the
implicit record, or on a variable exactly if its head, read in the scope of the body, says so.
Nothing that stands before the head plays a part, be it a dot or not. -/
theorem resolvedAsUnqualified_iff {path source : String} {tree : Tree}
    (h : resolve path source = .ok tree) {i : NodeId} {n : Node} (hn : tree.node? i = some n)
    (hkind : n.kind = .invocationExpression) :
    let t := Text.ofCells (Cells.ofString source)
    ∃ (b : Body t tree.symbols) (c : Call), (∃ j, tree.BlockOf b j ∧ j ∈ tree.ancestors i) ∧
      c ∈ t.calls b.extent ∧ n.span = t.span c.extent ∧
      n.invocation.map (·.method.name) = some c.method ∧
      (tree.CallsGlobal i n ↔ c.Unclaimed (tree.proceduresIn b.object) ∧
        (globalMethods.lookup (Name.lower c.method)).isSome = true) ∧
      (tree.CallsOnImplicitRecord i ↔ c.Unclaimed (tree.proceduresIn b.object) ∧
        globalMethods.lookup (Name.lower c.method) = none ∧
        (recordTable? t b.site).isSome = true ∧
        (recordMethods.lookup (Name.lower c.method)).isSome = true) ∧
      ∀ s, tree.CallsOnVariable i s ↔ ∃ r, c.receiver = some r ∧
        tree.lookup? b.owner b.object (t.name r) = some s := by
  intro t
  have hcopies : t.Copies (Cells.ofString source) := Text.copies_ofCells (Cells.whole_ofString source)
  obtain ⟨b, j, hblock, hj, p, e, below, hat, rfl⟩ :=
    exists_body_of_code h hn (by rw [hkind]; rfl)
  have hresolved := (resolved_outlineCalls (fun _ hc => hc) b.extent).of_at hat
  obtain ⟨c, hc, hspan, ⟨parameters, htarget⟩, arguments, rfl, harguments⟩ := hresolved.call hkind
  have hplace := (placed_of_mem_calls hcopies (b.cuts hcopies) hc).receiver_lt
  refine ⟨b, c, ⟨j, hblock, hj⟩, hc, hspan, ?_,
    callsGlobal_iff hblock hat harguments h hkind htarget _,
    callsOnImplicitRecord_iff hblock hat harguments hplace h hkind,
    callsOnVariable_iff hblock hat harguments hplace h hkind⟩
  rw [toNode, htarget]
  rfl

/-- A procedure that calls another one of its name behind a dot. -/
def ownNameSource : String :=
  "codeunit 1 C\x7bprocedure Confirm()begin G().Confirm()end;\x7d"

/-- The call behind the dot is not taken for the global method, as the object has a procedure of
the name. -/
theorem resolvedAsUnqualified_ownNameSource : ∃ tree n, resolve "a.al" ownNameSource = .ok tree ∧
    tree.node? 5 = some n ∧ n.kind = .invocationExpression ∧
    (Text.ofCells (Cells.ofString ownNameSource)).behindDot n.span.startByte = true ∧
    ¬ tree.CallsGlobal 5 n ∧ ∃ (b : Body (Text.ofCells (Cells.ofString ownNameSource)) tree.symbols)
      (c : Call), c ∈ (Text.ofCells (Cells.ofString ownNameSource)).calls b.extent ∧
        (tree.CallsGlobal 5 n ↔ c.Unclaimed (tree.proceduresIn b.object) ∧
          (globalMethods.lookup (Name.lower c.method)).isSome = true) := by
  have h : (resolve "a.al" ownNameSource).toOption.any (fun tree => (tree.node? 5).any fun n =>
      decide (n.kind = .invocationExpression ∧
        (Text.ofCells (Cells.ofString ownNameSource)).behindDot n.span.startByte = true ∧
        ¬ tree.CallsGlobal 5 n)) = true := by decide +kernel
  obtain ⟨tree, htree, h⟩ := exists_ok_of_any h
  obtain ⟨n, hn, h⟩ := (Option.any_eq_true _ _).mp h
  obtain ⟨hkind, hdot, hglobal⟩ := of_decide_eq_true h
  obtain ⟨b, c, -, hc, -, -, hiff, -⟩ := resolvedAsUnqualified_iff htree hn hkind
  exact ⟨tree, n, htree, hn, hkind, hdot, hglobal, b, c, hc, hiff⟩

end Source

namespace Dispatcher

open Source

/-- A procedure of a table with calls behind a dot: on the result of a call, on an element of an
array, and on a member that has the name of a parameter. -/
def chainedSource : String :=
  "table 1 T\x7bprocedure P(C:Record T)begin G().Confirm();L[1].Modify();A.C.Delete()end;\x7d"

/-- **Calls behind a dot are resolved as unqualified ones, and reported.** The first of the sample
is taken for the global method, the second for one on the implicit record, the third for one on the
parameter. -/
theorem qualified_calls_reported : ∃ d tree n₁ n₂ n₃, builtinUnder {} = .ok d ∧
    resolve "a.al" chainedSource = .ok tree ∧
    (tree.node? 5 = some n₁ ∧ tree.node? 6 = some n₂ ∧ tree.node? 8 = some n₃) ∧
    (∀ n ∈ [n₁, n₂, n₃], n.kind = .invocationExpression ∧
      (Text.ofCells (Cells.ofString chainedSource)).behindDot n.span.startByte = true) ∧
    tree.CallsGlobal 5 n₁ ∧ tree.CallsOnImplicitRecord 6 ∧ tree.CallsOnVariable 8 4 ∧
    (d.analyze tree).diagnostics.map (fun x => (x.id, x.span)) =
      [("LC0021", n₁.span), ("LC0040", n₂.span), ("LC0040", n₃.span)] := by
  have h : (builtinUnder {}).toOption.any (fun d =>
      (resolve "a.al" chainedSource).toOption.any fun tree =>
        (tree.node? 5).any fun n₁ => (tree.node? 6).any fun n₂ => (tree.node? 8).any fun n₃ =>
          decide ((∀ n ∈ [n₁, n₂, n₃], n.kind = .invocationExpression ∧
              (Text.ofCells (Cells.ofString chainedSource)).behindDot n.span.startByte = true) ∧
            tree.CallsGlobal 5 n₁ ∧ tree.CallsOnImplicitRecord 6 ∧ tree.CallsOnVariable 8 4 ∧
            (d.analyze tree).diagnostics.map (fun x => (x.id, x.span)) =
              [("LC0021", n₁.span), ("LC0040", n₂.span), ("LC0040", n₃.span)])) = true := by
    decide +kernel
  obtain ⟨d, hd, h⟩ := exists_ok_of_any h
  obtain ⟨tree, htree, h⟩ := exists_ok_of_any h
  simp only [Option.any_eq_true] at h
  obtain ⟨n₁, hn₁, n₂, hn₂, n₃, hn₃, hfacts⟩ := h
  exact ⟨d, tree, n₁, n₂, n₃, hd, htree, ⟨hn₁, hn₂, hn₃⟩, of_decide_eq_true hfacts⟩

end Dispatcher
end TreeLint
