/-
# Receivers of calls

In a document made from source text a call has at most one receiver, which comes
before its arguments and has nothing below it. A receiver whose type is a record
is a variable; the data types that methods are called on by name are no records.

The rule on changes takes a record anywhere in the call for a receiver. So it
reports a call on a record, and also a call on anything else that is given a
record as an argument (`record_receiver_or_argument`): `IsolatedStorage.Delete(R)`
is reported if `R` is a record (`storage_call_reported`).

Key definitions: `Source.CallShape`, `Source.unitOutline`, `Tree.receiver?`,
`Tree.HasRecordReceiver`, `Tree.PassesRecord`.
Key theorems: `Source.exists_objects_of_resolve`, `Source.exists_outline_of_resolve`,
`Source.refersToRecord_iff`, `Dispatcher.record_receiver_or_argument`, `Dispatcher.storage_call_reported`.
-/
import TreeLint.Proofs.Exemption
import TreeLint.Proofs.Outlines
import TreeLint.Proofs.Sites
import TreeLint.Proofs.Targets
import TreeLint.Source.Resolve

namespace TreeLint

namespace Tree

/-- The receiver of the call at a node: its first child that is not an argument. -/
def receiver? (t : Tree) (i : NodeId) : Option NodeId :=
  (t.childIds i).find? fun m => (t.node? m).any (·.kind != .argument)

/-- The receiver of the call at a node has a record type. -/
def HasRecordReceiver (t : Tree) (i : NodeId) : Prop :=
  ∃ m x type, t.receiver? i = some m ∧ t.node? m = some x ∧ x.resolvedType = some type ∧
    type.kind = .record

/-- An argument of the call at a node, or something below it, refers to a record. -/
def PassesRecord (t : Tree) (i : NodeId) : Prop :=
  ∃ a x m, t.ChildOf i a ∧ t.node? a = some x ∧ x.kind = .argument ∧
    Relation.ReflTransGen t.ChildOf a m ∧ t.RecordReference m

end Tree

namespace Source

/-! ### The shape of calls -/

/-- A node that has a type if it refers to a symbol, and refers to one if it is a record. -/
structure Entry.Typed (e : Entry) : Prop where
  exists_type : ∀ s, e.symbol = some s → ∃ type, e.resolvedType = some type
  exists_symbol : ∀ type, e.resolvedType = some type → type.kind = .record → ∃ s, e.symbol = some s

/-- Nothing, or one node with nothing below it that is not an argument. -/
def IsReceiver (o : Outline) : Prop :=
  o = .empty ∨ ∃ e, o = .single e .empty ∧ e.kind ≠ .argument ∧ e.Typed

/-- A call refers to no symbol itself, and below it are its receiver and then its arguments. -/
def CallShape (e : Entry) (below : Outline) : Prop :=
  e.kind = .invocationExpression → e.symbol = none ∧ ∃ receiver arguments,
    below = receiver.append arguments ∧ IsReceiver receiver ∧ arguments.TopAll (·.kind = .argument)

variable {t : Text} {s : Scope}

theorem CallShape.of_ne {e : Entry} (h : e.kind ≠ .invocationExpression) (below : Outline) :
    CallShape e below := fun hkind => absurd hkind h

/-- A reference to a variable is neither a call nor an argument. -/
theorem Variable.referenceKind_cases (v : Variable) :
    v.referenceKind ≠ .invocationExpression ∧ v.referenceKind ≠ .argument := by
  unfold referenceKind
  split <;> decide

theorem Variable.typed_reference (v : Variable) (span : Span) (routine : SymbolId) :
    (v.reference span routine).Typed :=
  ⟨fun _ _ => ⟨v.type, rfl⟩, fun _ _ _ => ⟨v.symbol, rfl⟩⟩

theorem ne_record_of_staticReceiver? {name : String} {kind : TypeKind}
    (h : staticReceiver? name = some kind) : kind ≠ .record := by
  simp only [staticReceiver?] at h
  split at h
  · rename_i hmem
    cases h
    intro hrecord
    rw [hrecord] at hmem
    revert hmem
    decide
  · cases h

/-- A call is made on a data type by name only if that type is not the record type. -/
theorem ne_record_of_target {call : Call} {kind : TypeKind} {place : Extent}
    (h : (s.target t call).receiver = .static kind place) : kind ≠ .record := by
  have hcases := resolves_target s t call
  generalize s.target t call = target at h hcases
  cases hcases with
  | onType _ _ hstatic =>
    cases h
    exact ne_record_of_staticReceiver? hstatic
  | ownProcedure | globalMethod | recordMethod | unknownMethod | onVariable | onUnknown => cases h

theorem isReceiver_receiverOutline (call : Call) {r : Receiver}
    (h : ∀ kind place, r = .static kind place → kind ≠ .record) :
    IsReceiver (receiverOutline t s call r) := by
  cases r with
  | absent => exact Or.inl rfl
  | declared v place =>
    exact Or.inr ⟨_, rfl, v.referenceKind_cases.2, v.typed_reference _ _⟩
  | implicit v => exact Or.inr ⟨_, rfl, v.referenceKind_cases.2, v.typed_reference _ _⟩
  | static kind place =>
    refine Or.inr ⟨_, rfl, nofun, ⟨nofun, fun type htype hrecord => ?_⟩⟩
    cases htype
    exact absurd hrecord (h kind place rfl)
  | unknown place => exact Or.inr ⟨_, rfl, nofun, ⟨nofun, nofun⟩⟩

theorem topAll_argumentsOutline (later : List Call) (nested : Extent → Outline)
    (arguments : List (Option String × Extent × Extent)) :
    (argumentsOutline t s later nested arguments).TopAll (·.kind = .argument) := by
  induction arguments with
  | nil => trivial
  | cons a rest ih => exact ⟨rfl, ih⟩

/-! ### Every call in a document has the shape -/

theorem all_receiverOutline (call : Call) (r : Receiver) :
    (receiverOutline t s call r).All CallShape := by
  cases r with
  | absent => trivial
  | declared v place => exact .single (.of_ne v.referenceKind_cases.1 _) trivial
  | implicit v => exact .single (.of_ne v.referenceKind_cases.1 _) trivial
  | static kind place => exact .single (.of_ne (by nofun) _) trivial
  | unknown place => exact .single (.of_ne (by nofun) _) trivial

theorem all_operandOutline (r : Extent) : (operandOutline t s r).All CallShape := by
  simp only [operandOutline]
  split
  · rename_i v _
    exact .single (.of_ne v.referenceKind_cases.1 _) trivial
  · exact .single (.of_ne (by nofun) _) trivial

theorem all_argumentsOutline {later : List Call} {nested : Extent → Outline}
    (h : ∀ value, (nested value).All CallShape)
    (arguments : List (Option String × Extent × Extent)) :
    (argumentsOutline t s later nested arguments).All CallShape := by
  induction arguments with
  | nil => trivial
  | cons a rest ih =>
    refine ⟨.of_ne (by nofun) _, ?_, ih⟩
    split
    · exact h _
    · exact all_operandOutline _

/-- **Every call in a body has its receiver before its arguments.** -/
theorem all_outlineCalls (calls : List Call) (within : Extent) :
    (outlineCalls t s calls within).All CallShape := by
  induction calls generalizing within with
  | nil => trivial
  | cons call later ih =>
    unfold outlineCalls
    split
    · exact ih _
    · refine ⟨fun _ => ⟨rfl, _, _, rfl, ?_, topAll_argumentsOutline _ _ _⟩, ?_, ih _⟩
      · exact isReceiver_receiverOutline call fun kind place => ne_record_of_target
      · exact (all_receiverOutline call _).append (all_argumentsOutline ih _)

theorem RoutineKind.nodeKind_ne (k : RoutineKind) : k.nodeKind ≠ .invocationExpression := by
  cases k <;> decide

theorem all_resolveRoutine (object first : SymbolId) (globals : List Variable)
    (procedures : List String) (r : Routine) :
    (resolveRoutine t object first globals procedures r).2.All CallShape := by
  refine .single (.of_ne r.kind.nodeKind_ne _) ?_
  split
  · exact .single (.of_ne (by nofun) _) (all_outlineCalls _ _)
  · trivial

theorem all_resolveRoutines (object : SymbolId) (globals : List Variable)
    (procedures : List String) (first : SymbolId) (rs : List Routine) :
    (resolveRoutines t object globals procedures first rs).2.All CallShape := by
  induction rs generalizing first with
  | nil => trivial
  | cons r rs ih => exact (all_resolveRoutine object first globals procedures r).append (ih _)

theorem all_resolveObject {first : SymbolId} {site : ObjectSite} {symbols : List Symbol}
    {o : Outline} (h : resolveObject t first site = .ok (symbols, o)) : o.All CallShape := by
  unfold resolveObject at h
  split at h
  · cases h
  · cases h
    exact .single (.of_ne (by nofun) _) (all_resolveRoutines _ _ _ _ _)

theorem all_resolveObjects {resume : Nat} {first : SymbolId} {hs : List (Found ObjectHeader)}
    {symbols : List Symbol} {o : Outline}
    (h : resolveObjects t resume first hs = .ok (symbols, o)) : o.All CallShape := by
  refine resolveObjects_rec (P := fun _ => True) (motive := fun _ _ _ o => o.All CallShape)
    (fun _ _ => trivial) ?_ (fun _ _ => trivial) h
  intro _ _ _ _ _ _ _ _ _ _ _ hobject hrest
  exact (all_resolveObject hobject).append hrest

theorem Text.length_ofString (source : String) :
    (Text.ofCells (Cells.ofString source)).length = source.utf8ByteSize := by
  rw [← Cells.length_ofString]
  exact (Text.copies_ofCells (Cells.whole_ofString source)).bare.length_eq

/-- The outline of a source text: one node for all of it, above the objects. -/
def unitOutline (source : String) (objects : Outline) : Outline :=
  .single
    { kind := .compilationUnit
      span := (LineIndex.ofCells (Cells.ofString source)).span ⟨0, source.utf8ByteSize⟩ } objects

theorem exists_objects_of_resolve {path source : String} {tree : Tree}
    (h : resolve path source = .ok tree) : ∃ doc objects, Tree.ofDocument doc = .ok tree ∧
      doc.source = some source ∧
      resolveObjects (Text.ofCells (Cells.ofString source)) 0 0
        (objectHeader.all ⟨none, 0, (Text.ofCells (Cells.ofString source)).bare⟩) =
          .ok (tree.symbols, objects) ∧
      tree.nodes = (unitOutline source objects).nodesFrom none 0 := by
  have hlength := Text.length_ofString source
  unfold resolve at h
  split at h
  · cases h
  · rename_i doc hdoc
    split at h
    · rename_i tree' htree
      cases h
      simp only [resolveDocument] at hdoc
      split at hdoc
      · cases hdoc
      · rename_i symbols objects hobjects
        cases hdoc
        have hofDocument := (Tree.ofDocument_eq_ok_iff.mp htree).2.1
        have hnodes := congrArg Document.nodes hofDocument
        have hsymbols := congrArg Document.symbols hofDocument
        refine ⟨_, objects, htree, rfl, ?_, ?_⟩
        · rw [hobjects, hsymbols]
        · rw [hnodes, hlength]
          rfl
    · cases h

/-- **The tree of a source text is made from an outline whose calls have their receiver before
their arguments.** -/
theorem exists_outline_of_resolve {path source : String} {tree : Tree}
    (h : resolve path source = .ok tree) : ∃ doc o, Tree.ofDocument doc = .ok tree ∧
      tree.nodes = Outline.nodesFrom none 0 o ∧ o.All CallShape := by
  obtain ⟨doc, objects, hdoc, -, hobjects, hnodes⟩ := exists_objects_of_resolve h
  exact ⟨doc, _, hdoc, hnodes, .single (.of_ne (by nofun) _) (all_resolveObjects hobjects)⟩

/-! ### What a call refers to -/

section Tree

variable {tree : Tree} {doc : Document} {o : Outline} {i c : NodeId} {n x : Node}
  (hdoc : Tree.ofDocument doc = .ok tree) (hnodes : tree.nodes = Outline.nodesFrom none 0 o)
  (hall : o.All CallShape) (hn : tree.node? i = some n) (hkind : n.kind = .invocationExpression)

/-- Where a node with a symbol has a type and a record has a symbol, the type alone decides what
refers to a record. -/
theorem Entry.Typed.recordReference_iff {e : Entry} (h : e.Typed) {p : Option NodeId} {b : Outline}
    (hc : tree.node? c = some (Outline.toNode e p c b)) :
    tree.RecordReference c ↔ ∃ type, e.resolvedType = some type ∧ type.kind = .record := by
  constructor
  · rintro ⟨y, s, hy, hs, htype⟩
    obtain rfl := Option.some.inj (hc.symm.trans hy)
    rcases htype with htype | ⟨hnone, -⟩
    · exact htype
    · obtain ⟨type, htype⟩ := h.exists_type s hs
      exact absurd (htype.symm.trans hnone) (Option.some_ne_none type)
  · rintro ⟨type, htype, hrecord⟩
    obtain ⟨s, hs⟩ := h.exists_symbol type htype hrecord
    exact ⟨_, s, hc, hs, Or.inl ⟨type, htype, hrecord⟩⟩

include hnodes hall hn hkind in
theorem not_recordReference_call : ¬ tree.RecordReference i := by
  obtain ⟨p, e, b, hat, rfl⟩ := Outline.exists_at_of_node? hnodes hn
  have hshape := (hall.of_at hat hkind).1
  rintro ⟨y, s, hy, hs, -⟩
  rw [hn] at hy
  cases hy
  exact Option.some_ne_none s (hs.symm.trans hshape)

include hdoc hnodes hall hn hkind in
/-- A child of a call that is not an argument comes right after it and has nothing below it. It is
a record by its type exactly if it refers to one. -/
theorem receiver_of_childOf (hc : tree.ChildOf i c) (hx : tree.node? c = some x)
    (harg : x.kind ≠ .argument) : c = i + 1 ∧ (∀ m, ¬ tree.ChildOf c m) ∧
      (tree.RecordReference c ↔ ∃ type, x.resolvedType = some type ∧ type.kind = .record) := by
  have hordered := Tree.ordered_of_ofDocument hdoc
  obtain ⟨p, e, b, hat, rfl⟩ := Outline.exists_at_of_node? hnodes hn
  obtain ⟨-, receiver, arguments, rfl, hreceiver, harguments⟩ := hall.of_at hat hkind
  obtain ⟨e', b', htop, hat'⟩ := hat.of_parent? hnodes ((hordered.mem_childIds i c).mp hc)
  obtain rfl := Option.some.inj (hx.symm.trans (hat'.node?_eq hnodes))
  rcases htop.cases_append with htop | ⟨first, htop⟩
  · rcases hreceiver with rfl | ⟨r, rfl, -, htyped⟩
    · cases htop
    · cases htop with
      | later htop => cases htop
      | here =>
        refine ⟨rfl, fun m hm => ?_, ?_⟩
        · obtain ⟨_, _, htop, -⟩ := hat'.of_parent? hnodes ((hordered.mem_childIds _ m).mp hm)
          cases htop
        · exact htyped.recordReference_iff (hat'.node?_eq hnodes)
  · exact absurd (harguments.of_topAt htop) harg

include hdoc hnodes hall hn hkind in
/-- The receiver of a call is its only child that is not an argument. -/
theorem receiver?_eq_some_iff :
    tree.receiver? i = some c ↔
      tree.ChildOf i c ∧ ∃ x, tree.node? c = some x ∧ x.kind ≠ .argument := by
  have hsat : ∀ m, (tree.node? m).any (·.kind != .argument) = true ↔
      ∃ x, tree.node? m = some x ∧ x.kind ≠ .argument := by
    intro m
    cases tree.node? m <;> simp
  have hfound : ∀ {m}, tree.receiver? i = some m →
      tree.ChildOf i m ∧ ∃ x, tree.node? m = some x ∧ x.kind ≠ .argument := by
    intro m hm
    have hm' := List.find?_some hm
    exact ⟨List.mem_of_find?_eq_some hm, (hsat m).mp hm'⟩
  refine ⟨hfound, ?_⟩
  rintro ⟨hc, x, hx, harg⟩
  have hsome : (tree.receiver? i).isSome = true := by
    rw [Tree.receiver?, List.find?_isSome]
    exact ⟨c, hc, (hsat c).mpr ⟨x, hx, harg⟩⟩
  obtain ⟨m, hm⟩ := Option.isSome_iff_exists.mp hsome
  obtain ⟨hm', y, hy, hyarg⟩ := hfound hm
  -- both come right after the call
  have hnext := (receiver_of_childOf hdoc hnodes hall hn hkind hc hx harg).1
  have hnext' := (receiver_of_childOf hdoc hnodes hall hn hkind hm' hy hyarg).1
  rw [hm, hnext, hnext']

include hdoc hnodes hall hn hkind in
/-- **A call refers to a record through its receiver or through an argument.** -/
theorem refersToRecord_iff :
    (∃ m, Relation.ReflTransGen tree.ChildOf i m ∧ tree.RecordReference m) ↔
      tree.HasRecordReceiver i ∨ tree.PassesRecord i := by
  constructor
  · rintro ⟨m, hm, hrecord⟩
    rcases hm.cases_head with rfl | ⟨c, hc, hm⟩
    · exact absurd hrecord (not_recordReference_call hnodes hall hn hkind)
    · have hlt := ((Tree.ordered_of_ofDocument hdoc).child_lt hc).2
      have hx : tree.node? c = some tree.nodes[c] := List.getElem?_eq_getElem hlt
      by_cases harg : tree.nodes[c].kind = .argument
      · exact Or.inr ⟨c, _, m, hc, hx, harg, hm, hrecord⟩
      · obtain ⟨-, hleaf, hiff⟩ := receiver_of_childOf hdoc hnodes hall hn hkind hc hx harg
        rcases hm.cases_head with rfl | ⟨c', hc', -⟩
        · obtain ⟨type, htype, hkind'⟩ := hiff.mp hrecord
          exact Or.inl ⟨c, _, type, (receiver?_eq_some_iff hdoc hnodes hall hn hkind).mpr
            ⟨hc, _, hx, harg⟩, hx, htype, hkind'⟩
        · exact absurd hc' (hleaf c')
  · rintro (⟨c, x, type, hc, hx, htype, hrecord⟩ | ⟨a, x, m, ha, -, -, hm, hrecord⟩)
    · obtain ⟨hchild, y, hy, harg⟩ := (receiver?_eq_some_iff hdoc hnodes hall hn hkind).mp hc
      obtain rfl := Option.some.inj (hx.symm.trans hy)
      have hiff := (receiver_of_childOf hdoc hnodes hall hn hkind hchild hx harg).2.2
      exact ⟨c, .single hchild, hiff.mpr ⟨type, htype, hrecord⟩⟩
    · exact ⟨m, hm.head ha, hrecord⟩

end Tree

theorem exists_ok_of_any {ε α : Type} {x : Except ε α} {p : α → Bool}
    (h : x.toOption.any p = true) : ∃ a, x = .ok a ∧ p a = true := by
  cases x with
  | error e => cases h
  | ok a => exact ⟨a, rfl, h⟩

end Source

namespace Dispatcher

/-- **The rule on changes reports calls on records and calls that are given one.** In the tree of
any source text, under any configuration, a diagnostic of the rule, suppressed or not, is at a call
that leaves open whether triggers run; and a call does so exactly if it is a built-in call in force
of a method that changes records, no argument is bound to the parameter for the triggers, and its
receiver is a record or an argument refers to one. -/
theorem record_receiver_or_argument {config : Config} {d : Dispatcher} {path source : String}
    {t : Tree} (hd : builtinUnder config = .ok d) (ht : Source.resolve path source = .ok t) :
    (∀ x ∈ (d.analyze t).raised, x.id = "LC0040" → ∃ i n, t.node? i = some n ∧ x.file = t.path ∧
      x.span = n.span ∧ t.LeavesTriggerOpen i n) ∧
    ∀ i n, t.node? i = some n → (t.LeavesTriggerOpen i n ↔ ∃ call, t.CallsBuiltIn n call ∧
      Name.lower call.method.name ∈ ["insert", "modify", "modifyall", "delete", "deleteall"] ∧
      (∀ a ∈ call.arguments, ∀ p, a.parameter = some p → ¬ Name.Spells p "RunTrigger") ∧
      (t.HasRecordReceiver i ∨ t.PassesRecord i)) := by
  obtain ⟨doc, o, hdoc, hnodes, hall⟩ := Source.exists_outline_of_resolve ht
  constructor
  · intro x hx hid
    obtain ⟨i, n, hn, hx⟩ := (d.mem_diagnostics_visitAll t).mp (mem_raised_analyze.mp hx).2
    obtain ⟨hfile, hspan⟩ := place_of_mem_diagnostics_visit hd hx
    exact ⟨i, n, hn, hfile, hspan, ((mem_visit_runTrigger_iff hd hdoc hn hid).mp hx).1⟩
  · intro i n hn
    constructor
    · rintro ⟨call, hcall, hmethod, hrecord, hunbound⟩
      exact ⟨call, hcall, hmethod, hunbound,
        (Source.refersToRecord_iff hdoc hnodes hall hn hcall.kind_eq).mp hrecord⟩
    · rintro ⟨call, hcall, hmethod, hunbound, hrecord⟩
      exact ⟨call, hcall, hmethod,
        (Source.refersToRecord_iff hdoc hnodes hall hn hcall.kind_eq).mpr hrecord, hunbound⟩

/-- A procedure that inserts the record it is given and then uses it as a key. -/
def sampleSource : String :=
  "codeunit 1 C\x7bprocedure P(R: Record T) begin R.Insert(); IsolatedStorage.Delete(R) end;\x7d"

/-- The node of `R.Insert()`. -/
def insertCall : Node where
  kind := .invocationExpression
  span := ⟨44, 54, 1, 45, 1, 55⟩
  parent := some 3
  containingSymbol := some 1
  invocation := some ⟨⟨"Insert", .builtInMethod⟩, []⟩

/-- The node of `IsolatedStorage.Delete(R)`. -/
def storageCall : Node where
  kind := .invocationExpression
  span := ⟨56, 81, 1, 57, 1, 82⟩
  parent := some 3
  containingSymbol := some 1
  invocation := some ⟨⟨"Delete", .builtInMethod⟩, [⟨some "Key", some 8⟩]⟩

/-- The two calls of the sample, and the types of their receivers. -/
theorem exists_sampleTree : ∃ t, Source.resolve "a.al" sampleSource = .ok t ∧
    (t.node? 4 = some insertCall ∧ t.receiver? 4 = some 5 ∧
      (t.node? 5).bind (·.resolvedType) = some ⟨.record, some "T", false⟩) ∧
    (t.node? 6 = some storageCall ∧ t.receiver? 6 = some 7 ∧
      (t.node? 7).bind (·.resolvedType) = some ⟨.isolatedStorage, none, false⟩) ∧
    t.isExempt (some 1) = false ∧ t.refersToRecord 6 = true ∧ t.path = "a.al" ∧
    t.directives = [] := by
  have h : (Source.resolve "a.al" sampleSource).toOption.any (fun t => decide (
      (t.node? 4 = some insertCall ∧ t.receiver? 4 = some 5 ∧
        (t.node? 5).bind (·.resolvedType) = some ⟨.record, some "T", false⟩) ∧
      (t.node? 6 = some storageCall ∧ t.receiver? 6 = some 7 ∧
        (t.node? 7).bind (·.resolvedType) = some ⟨.isolatedStorage, none, false⟩) ∧
      t.isExempt (some 1) = false ∧ t.refersToRecord 6 = true ∧ t.path = "a.al" ∧
      t.directives = [])) = true := by decide +kernel
  obtain ⟨t, ht, h⟩ := Source.exists_ok_of_any h
  exact ⟨t, ht, of_decide_eq_true h⟩

/-- The call on the record is one that the rule reports. -/
theorem record_call_reported : ∃ d t, builtinUnder {} = .ok d ∧
    Source.resolve "a.al" sampleSource = .ok t ∧ t.HasRecordReceiver 4 ∧
    t.LeavesTriggerOpen 4 insertCall := by
  obtain ⟨d, hd⟩ := @exists_builtinUnder {} [] rfl
  obtain ⟨t, ht, ⟨hn, hreceiver, htype⟩, -, hforce, -⟩ := exists_sampleTree
  obtain ⟨doc, o, hdoc, -⟩ := Source.exists_outline_of_resolve ht
  obtain ⟨x, hx, htype⟩ := Option.bind_eq_some_iff.mp htype
  have hrecord : t.HasRecordReceiver 4 := ⟨5, x, _, hreceiver, hx, htype, rfl⟩
  refine ⟨d, t, hd, ht, hrecord, ((record_receiver_or_argument hd ht).2 4 _ hn).mpr ?_⟩
  exact ⟨_, ⟨rfl, (Tree.isExempt_eq_false_iff hdoc hn).mp hforce, rfl, rfl⟩, by decide,
    List.forall_mem_nil _, Or.inl hrecord⟩

/-- **A call on a data type that is given a record is reported**, though its receiver is no
record. -/
theorem storage_call_reported : ∃ d t, builtinUnder {} = .ok d ∧
    Source.resolve "a.al" sampleSource = .ok t ∧ t.node? 6 = some storageCall ∧
    ¬ t.HasRecordReceiver 6 ∧
    ⟨"LC0040", .info, "a.al", storageCall.span, Catalog.runTriggerText⟩ ∈
      (d.analyze t).diagnostics := by
  obtain ⟨d, hd⟩ := @exists_builtinUnder {} [] rfl
  obtain ⟨t, ht, -, ⟨hn, hreceiver, htype⟩, hforce, hrecord, hpath, hdirectives⟩ :=
    exists_sampleTree
  obtain ⟨doc, o, hdoc, -⟩ := Source.exists_outline_of_resolve ht
  refine ⟨d, t, hd, ht, hn, ?_, ?_⟩
  · rintro ⟨m, x, type, hm, hx, htype', hkind⟩
    obtain rfl := Option.some.inj (hreceiver.symm.trans hm)
    rw [hx, Option.bind_some, htype'] at htype
    cases htype
    cases hkind
  · have hlt : 6 < t.nodes.length := (List.getElem?_eq_some_iff.mp hn).1
    have hopen : t.LeavesTriggerOpen 6 storageCall :=
      ⟨_, ⟨rfl, (Tree.isExempt_eq_false_iff hdoc hn).mp hforce, rfl, rfl⟩, by decide,
        (Tree.refersToRecord_eq_true_iff hdoc hlt).mp hrecord,
        (Invocation.any_binds_eq_false_iff _ (Rule.isPlain_of_mem (by simp))).mp (by decide)⟩
    rw [analyze_eq_merge (isExcluded_builtinUnder_default hd t.path)]
    refine List.mem_append_left _ (List.mem_filter.mpr ⟨?_, ?_⟩)
    · rw [mem_diagnostics_visitAll]
      refine ⟨6, _, hn, (mem_visit_runTrigger_iff hd hdoc hn rfl).mpr ⟨hopen, ?_⟩⟩
      rw [Setup.reportAt, Setup.severity?_builtin_default List.mem_cons_self, hpath]
      exact List.mem_cons_self
    · simp [Tree.disabling?, hdirectives, Pragma.active?, Pragma.lastActive]

end Dispatcher
end TreeLint
