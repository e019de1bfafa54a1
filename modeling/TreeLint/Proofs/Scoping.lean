/-
# What references refer to

A reference to a variable is a receiver or an operand of a call in a body. It was
looked up in the scope of that body, so it refers to a symbol that is declared in
the routine or in its object, and to the first one of the name: parameters come
before local variables, these before the implicit records, and these before the
variables of the object (`Source.references_scoped`). The only receiver that is not
written, the one of a call on the implicit record, refers to `Rec`.

Key definitions: `Tree.Declares`, `Source.Text.lookedUp`, `Tree.RefersTo`.
Key theorems: `Source.reference_of_receiver`, `Source.reference_of_operand`,
`Source.reference_cases`, `Source.references_scoped`.
-/
import TreeLint.Proofs.Bodies

namespace TreeLint

/-- A kind of node that refers to a variable. -/
def NodeKind.isReference (k : NodeKind) : Bool :=
  [localReference, globalReference, parameterReference].contains k

theorem NodeKind.isOperand_of_isReference {k : NodeKind} (h : k.isReference = true) :
    k.isOperand = true := by
  revert h
  cases k <;> decide

/-- The text that a reference is looked up by: an operand as it is written, a receiver without its
quotes. -/
def Source.Text.lookedUp (t : Source.Text) (parent : NodeKind) (r : Extent) : String :=
  if parent = .argument then (t.masked.slice r).trim.text else t.name r

namespace Tree

variable (tree : Tree) {t : Source.Text} (b : Source.Body t tree.symbols)

/-- The symbols of a body's routine and object, with what the text declares in them. -/
structure Declares : Prop where
  routine : ∃ x, tree.symbol? b.owner = some x ∧ x.containing = some b.object ∧
    x.kind = b.routine.kind.symbolKind
  object : ∃ x, tree.symbol? b.object = some x ∧ x.kind = b.site.kind ∧ x.kind.isObject = true
  parameters : tree.declarationsIn b.owner .parameter = t.declarations b.routine.parameters true
  localVariables : tree.declarationsIn b.owner .localVariable =
    Source.localDeclarations t b.routine
  globalVariables : tree.declarationsIn b.object .globalVariable =
    Source.implicitRecords (Source.recordTable? t b.site) ++
      Source.globalDeclarations t b.site b.routines

/-- The node at `i` refers to the symbol `x` at `s` as the names of the body have it. -/
structure RefersTo (i : NodeId) (n : Node) (s : SymbolId) (x : Symbol) : Prop where
  containing : n.containingSymbol = some b.owner
  symbol : n.symbol = some s
  symbol? : tree.symbol? s = some x
  mem_visible : s ∈ tree.visibleIn b.owner b.object
  declared : x.kind = .parameter ∧ n.kind = .parameterReference ∧ x.containing = some b.owner ∨
    x.kind = .localVariable ∧ n.kind = .localReference ∧ x.containing = some b.owner ∨
    x.kind = .globalVariable ∧ n.kind = .globalReference ∧ x.containing = some b.object
  type : n.resolvedType.isSome = true ∧ n.resolvedType = x.declaredType
  written : n.span.startByte < n.span.endByte → ∃ q m, tree.parent? i = some q ∧
    tree.node? q = some m ∧ (m.kind = .argument ∨ m.kind = .invocationExpression) ∧
    tree.lookup? b.owner b.object (t.lookedUp m.kind n.span.extent) = some s
  unwritten : ¬ n.span.startByte < n.span.endByte → ∃ table,
    Source.recordTable? t b.site = some table ∧ x.name = "Rec" ∧
    x.declaredType = some { kind := .record, name := some table } ∧
    (tree.declaredIn b.object .globalVariable).head? = some s

end Tree

namespace Source

open Outline

variable {t : Text} {s : Scope} {call : Call} {v : Variable}

/-! ### Receivers and operands -/

theorem reference_of_receiver {first i : Nat} {e : Entry} {below : Outline}
    (h : (receiverOutline t s call (s.target t call).receiver).TopAt first i e below)
    (hkind : e.kind.isReference = true) :
    (∃ v r, e = v.reference (t.span r) s.routine ∧ call.receiver = some r ∧
      s.lookup? (t.name r) = some v) ∨
    ∃ v, e = v.reference (t.span ⟨call.extent.start, call.extent.start⟩) s.routine ∧
      s.implicitRecord? = some v := by
  cases hreceiver : (s.target t call).receiver with
  | absent =>
    rw [hreceiver] at h
    cases h
  | declared v r =>
    rw [hreceiver] at h
    cases h with
    | here => exact Or.inl ⟨v, r, rfl, target_declared_iff.mp hreceiver⟩
    | later h => cases h
  | implicit v =>
    rw [hreceiver] at h
    cases h with
    | here => exact Or.inr ⟨v, rfl, (target_implicit_iff.mp hreceiver).2.2.1⟩
    | later h => cases h
  | static kind r | unknown r =>
    rw [hreceiver] at h
    cases h with
    | here => cases hkind
    | later h => cases h

theorem reference_of_operand {r : Extent} {first i : Nat} {e : Entry} {below : Outline}
    (h : (operandOutline t s r).TopAt first i e below) (hkind : e.kind.isReference = true) :
    ∃ v, e = v.reference (t.span r) s.routine ∧ isIdentifier (t.masked.slice r).trim = true ∧
      s.lookup? (t.masked.slice r).trim.text = some v := by
  simp only [operandOutline] at h
  split at h
  · rename_i v hv
    split at hv
    · rename_i hident
      cases h with
      | here => exact ⟨v, rfl, hident, hv⟩
      | later h => cases h
    · cases hv
  · cases h with
    | here => cases hkind
    | later h => cases h

/-! ### References in a body -/

section Body

variable {calls : List Call} {w : Extent} {i j : Nat} {p : Option Nat} {e : Entry} {below : Outline}

theorem exists_parent_of_operand (hat : (outlineCalls t s calls w).At (some j) (j + 1) i p e below)
    (hkind : e.kind.isOperand = true) : ∃ q p' e' b', p = some q ∧
      (outlineCalls t s calls w).At (some j) (j + 1) q p' e' b' ∧ b'.TopAt (q + 1) i e below := by
  obtain ⟨q, rfl, -⟩ := hat.parent_bounds
  rcases hat.cases_parent with ⟨-, htop⟩ | ⟨p', e', b', hq, htop⟩
  · have hcall : e.kind = .invocationExpression := (topAll_outlineCalls calls w).of_topAt htop
    rw [hcall] at hkind
    cases hkind
  · exact ⟨q, p', e', b', rfl, hq, htop⟩

/-- **A reference is a receiver or an operand**: the variable of the name that it is looked up by
or, at an empty range, the implicit record. -/
theorem reference_cases (hreceivers : ∀ c ∈ calls, ∀ r, c.receiver = some r → r.start < r.stop)
    (hat : (outlineCalls t s calls w).At (some j) (j + 1) i p e below)
    (hkind : e.kind.isReference = true) : ∃ v r, e = v.reference (t.span r) s.routine ∧
      ((r.start < r.stop ∧ ∃ q p' e' b', p = some q ∧
          (outlineCalls t s calls w).At (some j) (j + 1) q p' e' b' ∧
          (e'.kind = .argument ∨ e'.kind = .invocationExpression) ∧
          s.lookup? (t.lookedUp e'.kind r) = some v) ∨
        r.start = r.stop ∧ s.implicitRecord? = some v) := by
  obtain ⟨q, p', e', b', hp, hq, htop⟩ :=
    exists_parent_of_operand hat (NodeKind.isOperand_of_isReference hkind)
  have hresolved := (resolved_outlineCalls (fun _ hc => hc) w).of_at hq
  by_cases hargument : e'.kind = .argument
  · rcases hresolved.argument hargument with ⟨r, rfl⟩ | hcalls
    · obtain ⟨v, rfl, hident, hlookup⟩ := reference_of_operand htop hkind
      have hlt : r.start < r.stop := by
        -- nothing is cut out of an empty interval, and that is no identifier
        by_contra hle
        have hempty : t.masked.slice r = [] := by
          simp [Cells.slice, Nat.sub_eq_zero_of_le (not_lt.mp hle)]
        rw [hempty] at hident
        revert hident
        decide
      refine ⟨v, r, rfl, Or.inl ⟨hlt, q, p', e', _, hp, hq, Or.inl hargument, ?_⟩⟩
      rw [Text.lookedUp, if_pos hargument]
      exact hlookup
    · rw [hcalls.of_topAt htop] at hkind
      cases hkind
  · by_cases hcall : e'.kind = .invocationExpression
    · obtain ⟨c, hc, -, -, arguments, rfl, harguments⟩ := hresolved.call hcall
      rcases htop.cases_append with htop | ⟨first, htop⟩
      · rcases reference_of_receiver htop hkind with
          ⟨v, r, rfl, hr, hlookup⟩ | ⟨v, rfl, hrecord⟩
        · refine ⟨v, r, rfl, Or.inl ⟨hreceivers c hc r hr, q, p', e', _, hp, hq, Or.inr hcall, ?_⟩⟩
          rw [Text.lookedUp, if_neg hargument]
          exact hlookup
        · exact ⟨v, _, rfl, Or.inr ⟨rfl, hrecord⟩⟩
      · rw [harguments.of_topAt htop] at hkind
        cases hkind
    · -- nothing stands below an operand
      have hoperand : e'.kind.isOperand = true := by
        have hcode := hresolved.isCode
        revert hargument hcall hcode
        cases e'.kind <;> decide
      rw [hresolved.operand hoperand] at htop
      cases htop

end Body

theorem Body.declares {tree : Tree} (b : Body t tree.symbols) : tree.Declares b where
  routine := ⟨_, b.owner_symbol, rfl, rfl⟩
  object := by
    obtain ⟨x, hx, hkind⟩ := b.object_symbol
    exact ⟨x, hx, hkind, hkind ▸ b.isObject_site⟩
  parameters := b.declarationsIn_parameter rfl
  localVariables := b.declarationsIn_localVariable rfl
  globalVariables := b.declarationsIn_globalVariable rfl

/-- What is visible in a body is declared in its routine or in its object, and its kind says which
and how it is referred to. -/
theorem Body.exists_symbol_of_mem_visible {tree : Tree} (b : Body t tree.symbols) {v : Variable}
    (hv : v ∈ b.scope.visible) : v.symbol ∈ tree.visibleIn b.owner b.object ∧
      ∃ within, tree.symbol? v.symbol = some (v.toSymbol within) ∧
        (v.kind = .parameter ∧ v.referenceKind = .parameterReference ∧ within = b.owner ∨
          v.kind = .localVariable ∧ v.referenceKind = .localReference ∧ within = b.owner ∨
          v.kind = .globalVariable ∧ v.referenceKind = .globalReference ∧ within = b.object) := by
  refine ⟨?_, ?_⟩
  · rw [b.visibleIn_eq rfl]
    exact List.mem_map_of_mem hv
  · rcases List.mem_append.mp hv with hv | hv
    · refine ⟨b.owner, b.symbol_of_mem_locals hv, ?_⟩
      rcases b.kind_of_mem_locals hv with hk | hk
      · exact Or.inl ⟨hk, by simp [Variable.referenceKind, hk], rfl⟩
      · exact Or.inr (Or.inl ⟨hk, by simp [Variable.referenceKind, hk], rfl⟩)
    · have hk := b.kind_of_mem_globals hv
      exact ⟨b.object, b.symbol_of_mem_globals hv,
        Or.inr (Or.inr ⟨hk, by simp [Variable.referenceKind, hk], rfl⟩)⟩

/-- **Scoping is sound.** Every reference to a variable, in the tree of every source text that
resolves, stands below the block of one body; it belongs to the body's routine and refers to a
symbol that is declared in this routine or its object: the first one visible of the name it is
looked up by, or `Rec` if it is not written. -/
theorem references_scoped {path source : String} {tree : Tree}
    (h : resolve path source = .ok tree) {i : NodeId} {n : Node} (hn : tree.node? i = some n)
    (hkind : n.kind.isReference = true) :
    ∃ b : Body (Text.ofCells (Cells.ofString source)) tree.symbols, tree.Declares b ∧
      (∃ j, tree.BlockOf b j ∧ j ∈ tree.ancestors i) ∧ ∃ s x, tree.RefersTo b i n s x := by
  have hcopies := Text.copies_ofCells (Cells.whole_ofString source)
  obtain ⟨b, j, hblock, hj, p, e, below, hat, rfl⟩ := exists_body_of_code h hn
    (NodeKind.isCode_of_isOperand (NodeKind.isOperand_of_isReference hkind))
  refine ⟨b, b.declares, ⟨j, hblock, hj⟩, ?_⟩
  have hreceivers : ∀ c ∈ (Text.ofCells (Cells.ofString source)).calls b.extent, ∀ r,
      c.receiver = some r → r.start < r.stop := fun c hc =>
    (placed_of_mem_calls hcopies (b.cuts hcopies) hc).receiver_lt
  obtain ⟨v, r, rfl, hcases⟩ := reference_cases hreceivers hat hkind
  have hvisible : v ∈ b.scope.visible := by
    rcases hcases with ⟨-, q, p', e', b', -, -, -, hlookup⟩ | ⟨-, hrecord⟩
    · exact List.mem_of_find?_eq_some hlookup
    · exact List.mem_append_right _ (List.mem_of_find?_eq_some hrecord)
  obtain ⟨hmem, within, hsymbol, hwithin⟩ := b.exists_symbol_of_mem_visible hvisible
  refine ⟨v.symbol, v.toSymbol within, {
    containing := rfl
    symbol := rfl
    symbol? := hsymbol
    mem_visible := hmem
    declared := ?_
    type := ⟨rfl, rfl⟩
    written := ?_
    unwritten := ?_ }⟩
  · rcases hwithin with ⟨hk, hr, rfl⟩ | ⟨hk, hr, rfl⟩ | ⟨hk, hr, rfl⟩
    · exact Or.inl ⟨hk, hr, rfl⟩
    · exact Or.inr (Or.inl ⟨hk, hr, rfl⟩)
    · exact Or.inr (Or.inr ⟨hk, hr, rfl⟩)
  · intro hlt
    obtain ⟨-, q, p', e', b', rfl, hq, hparent, hlookup⟩ :=
      hcases.resolve_right fun hempty => (show r.start < r.stop from hlt).ne hempty.1
    refine ⟨q, _, ?_, node?_of_blockOf hblock hq, hparent, ?_⟩
    · rw [Tree.parent?, hn]
      rfl
    · rw [b.lookup?_eq rfl]
      exact congrArg (Option.map _) hlookup
  · intro hempty
    obtain ⟨-, hrecord⟩ := hcases.resolve_left fun hwritten => hempty hwritten.1
    rw [b.implicitRecord?_eq] at hrecord
    obtain ⟨table, htable, rfl⟩ := Option.map_eq_some_iff.mp hrecord
    refine ⟨table, htable, rfl, rfl, ?_⟩
    rw [Tree.declaredIn, b.map_symbol_globals, List.head?_map]
    exact b.head?_globals htable

/-- A table with a variable `R`, a trigger with a parameter of the same name, and a procedure
without one. -/
def scopeSource : String :=
  "table 1 T\x7bvar R:Text;\ntrigger X(R:Text)var Q:Text begin Q.A(R);Get()end;\n" ++
    "procedure Y()begin R.A(Rec)end;\x7d"

/-- In the trigger of the sample `R` is the parameter, in the procedure the variable of the table;
the call without a receiver is on `Rec`, which the last operand names. -/
theorem scoped_scopeSource : ∃ tree, resolve "a.al" scopeSource = .ok tree ∧
    [5, 7, 9, 13, 15].map (fun i => (tree.node? i).bind (·.symbol)) =
      [some 6, some 5, some 1, some 3, some 1] ∧
    ∀ i ∈ [5, 7, 9, 13, 15], ∃ n, tree.node? i = some n ∧ n.kind.isReference = true ∧
      ∃ b : Body (Text.ofCells (Cells.ofString scopeSource)) tree.symbols, tree.Declares b ∧
        (∃ j, tree.BlockOf b j ∧ j ∈ tree.ancestors i) ∧ ∃ s x, tree.RefersTo b i n s x := by
  have h : (resolve "a.al" scopeSource).toOption.any (fun tree =>
      decide ([5, 7, 9, 13, 15].map (fun i => (tree.node? i).bind (·.symbol)) =
        [some 6, some 5, some 1, some 3, some 1]) &&
      [5, 7, 9, 13, 15].all fun i => (tree.node? i).any (·.kind.isReference)) = true := by
    decide +kernel
  obtain ⟨tree, htree, h⟩ := exists_ok_of_any h
  obtain ⟨hsymbols, hall⟩ := Bool.and_eq_true_iff.mp h
  refine ⟨tree, htree, of_decide_eq_true hsymbols, fun i hi => ?_⟩
  obtain ⟨n, hn, hkind⟩ := (Option.any_eq_true _ _).mp (List.all_eq_true.mp hall i hi)
  exact ⟨n, hn, hkind, references_scoped htree hn hkind⟩

end Source
end TreeLint
