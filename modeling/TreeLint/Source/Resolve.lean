/-
# From source text to a resolved document

The front end for small sources: objects with their routines, variables and
calls. Every object gives a symbol, then the symbols of its implicit records and
variables, then for each routine its own symbol and those of its parameters and
local variables. The nodes are one compilation unit, the objects in it, their
routines, the routines' blocks, and the calls in them with their receivers and
arguments.

Key definitions: `Source.outlineCalls`, `Source.resolveRoutine`,
`Source.resolveObject`, `Source.resolveDocument`, `Source.resolve`.
-/
import TreeLint.Source.Declaration
import TreeLint.Source.Outline
import TreeLint.Source.Routine
import TreeLint.Source.Scope

namespace TreeLint
namespace Source

/-- The variables of a list of declarations, with consecutive symbols from `first` on. -/
def declare (kind : SymbolKind) (implicit : Bool) (first : SymbolId)
    (ds : List (String × TypeInfo)) : List Variable :=
  (ds.zipIdx first).map fun ((name, type), i) => ⟨name, i, kind, type, implicit⟩

/-- The symbol of a variable declared in another symbol. -/
def Variable.toSymbol (within : SymbolId) (v : Variable) : Symbol :=
  { kind := v.kind, name := v.name, containing := some within, declaredType := some v.type }

/-- A reference to a variable, inside a routine. -/
def Variable.reference (v : Variable) (span : Span) (routine : SymbolId) : Entry where
  kind := v.referenceKind
  span
  symbol := some v.symbol
  resolvedType := some v.type
  containingSymbol := some routine

/-- A node of a routine that refers to nothing. -/
def plainEntry (kind : NodeKind) (span : Span) (routine : SymbolId) : Entry :=
  { kind, span, containingSymbol := some routine }

/-- The node of a call's receiver, if it has one; an implicit receiver is an empty range at the
start of the call. -/
def receiverOutline (t : Text) (s : Scope) (call : Call) : Receiver → Outline
  | .absent => .empty
  | .declared v r => .single (v.reference (t.span r) s.routine) .empty
  | .implicit v =>
    .single (v.reference (t.span ⟨call.extent.start, call.extent.start⟩) s.routine) .empty
  | .static kind r =>
    .single { plainEntry .typeReference (t.span r) s.routine with
      resolvedType := some { kind } } .empty
  | .unknown r => .single (plainEntry .identifier (t.span r) s.routine) .empty

/-- The node of an operand: a reference if it is the name of a variable, a literal if not. -/
def operandOutline (t : Text) (s : Scope) (r : Extent) : Outline :=
  let operand := (t.masked.slice r).trim
  let referent := if isIdentifier operand then s.lookup? operand.text else none
  match referent with
  | some v => .single (v.reference (t.span r) s.routine) .empty
  | none => .single (plainEntry .literal (t.span r) s.routine) .empty

/-- The parameter that an argument is bound to and the interval of its value: the name before
`:=`, or else the parameter at its position. -/
def bindArgument (t : Text) (parameters : List String) (position : Nat) (r : Extent) :
    Option String × Extent :=
  match namedArgument? (t.bare.slice r) with
  | some (name, value) =>
    (some ((t.bare.slice r).slice name).text, ⟨r.start + value, r.stop⟩)
  | none => (parameters[position]?, r)

/-- The argument nodes of a call. The calls within an argument's value go below its node; without
any, its operand does. -/
def argumentsOutline (t : Text) (s : Scope) (later : List Call) (nested : Extent → Outline) :
    List (Option String × Extent × Extent) → Outline
  | [] => .empty
  | (_, r, value) :: rest =>
    let below :=
      if later.any fun c => value.start ≤ c.extent.start && c.extent.stop ≤ value.stop then
        nested value
      else operandOutline t s value
    .node (plainEntry .argument (t.span r) s.routine) below
      (argumentsOutline t s later nested rest)

/-- The arguments of a call, each with its parameter, its interval and the interval of its
value. -/
def boundArguments (t : Text) (parameters : List String) (call : Call) :
    List (Option String × Extent × Extent) :=
  call.arguments.zipIdx.map fun (r, i) =>
    let bound := bindArgument t parameters i r
    (bound.1, r, bound.2)

/-- The outermost of the calls that lie within an interval, one after the other. Calls are listed
by their start, so the calls inside a call come after it. -/
def outlineCalls (t : Text) (s : Scope) : List Call → Extent → Outline
  | [], _ => .empty
  | call :: later, within =>
    if call.extent.start < within.start ∨ within.stop < call.extent.stop then
      outlineCalls t s later within
    else
      let target := s.target t call
      let arguments := boundArguments t target.parameters call
      let entry : Entry :=
        { plainEntry .invocationExpression (t.span call.extent) s.routine with
          target := some (⟨call.method, target.kind⟩, arguments.map (·.1)) }
      .node entry
        ((receiverOutline t s call target.receiver).append
          (argumentsOutline t s later (fun value => outlineCalls t s later value) arguments))
        (outlineCalls t s later ⟨call.extent.stop, within.stop⟩)

/-- The kind of a routine's symbol. -/
def RoutineKind.symbolKind : RoutineKind → SymbolKind
  | .procedure => .method
  | .trigger => .trigger

/-- The kind of a routine's node. -/
def RoutineKind.nodeKind : RoutineKind → NodeKind
  | .procedure => .methodDeclaration
  | .trigger => .triggerDeclaration

/-- The symbols of a routine, the first of them at position `first`, and its node. -/
def resolveRoutine (t : Text) (object first : SymbolId) (globals : List Variable)
    (procedures : List String) (r : Routine) : List Symbol × Outline :=
  let symbol : Symbol :=
    { kind := r.kind.symbolKind
      name := t.name r.name
      obsolete := if r.obsolete then .pending else .current
      containing := some object }
  let parameters := declare .parameter false (first + 1) (t.declarations r.parameters true)
  let locals := declare .localVariable false (first + 1 + parameters.length)
    (match r.locals with
      | some extent => t.declarations extent false
      | none => [])
  let scope : Scope := ⟨first, parameters ++ locals, globals, procedures⟩
  let block := match r.body with
    | some body =>
      .single (plainEntry .block (t.span body) first) (outlineCalls t scope (t.calls body) body)
    | none => .empty
  let entry : Entry :=
    { plainEntry r.kind.nodeKind (t.span ⟨r.header, r.extent.stop⟩) first with
      symbol := some first }
  (symbol :: (parameters ++ locals).map (Variable.toSymbol first), .single entry block)

/-- The symbols and nodes of the routines of an object. -/
def resolveRoutines (t : Text) (object : SymbolId) (globals : List Variable)
    (procedures : List String) : SymbolId → List Routine → List Symbol × Outline
  | _, [] => ([], .empty)
  | first, r :: rs =>
    let one := resolveRoutine t object first globals procedures r
    let rest := resolveRoutines t object globals procedures (first + one.1.length) rs
    (one.1 ++ rest.1, one.2.append rest.2)

/-- An object's header and braces. -/
structure ObjectSite where
  kind : SymbolKind
  start : Nat
  name : Extent
  base : Option Extent
  opening : Nat
  closing : Nat
deriving Repr

/-- The interval between the braces. -/
def ObjectSite.members (o : ObjectSite) : Extent := ⟨o.opening + 1, o.closing⟩

/-- The object of a header. -/
def objectSite (t : Text) (h : Found ObjectHeader) : Except ResolveError ObjectSite :=
  match Cells.findChar? '\x7b' h.extent.stop (t.bare.drop h.extent.stop) with
  | none => .error (.noBody (t.span h.extent))
  | some opening =>
    match t.closingBrace? opening with
    | none => .error (.notClosed (t.span h.extent))
    | some closing =>
      let word := (t.bare.slice h.value.keyword).text
      match SymbolKind.ofObjectKeyword? word with
      | none => .error (.unknownObject word)
      | some kind => .ok ⟨kind, h.extent.start, h.value.name, h.value.base, opening, closing⟩

/-- The table whose rows `Rec` and `xRec` stand for in an object: the table itself, the table an
extension extends, the source table of a page. -/
def recordTable? (t : Text) (o : ObjectSite) : Option String :=
  match o.kind with
  | .table => some (t.name o.name)
  | .tableExtension => o.base.map t.name
  | .page => (t.property? sourceTable o.members (t.depth o.opening + 1)).map t.name
  | _ => none

/-- The declarations of the implicit records. -/
def implicitRecords (table : Option String) : List (String × TypeInfo) :=
  match table with
  | some name => ["Rec", "xRec"].map fun r => (r, { kind := .record, name := some name })
  | none => []

/-- The declarations of an object's variables: those of each `var` directly inside the braces and
outside every routine, up to the next routine. -/
def globalDeclarations (t : Text) (o : ObjectSite) (rs : List Routine) :
    List (String × TypeInfo) :=
  let sections := (keyword "var").all (Cursor.ofSlice t.bare o.members)
  let global := sections.filter fun f =>
    t.depth f.extent.start == t.depth o.opening + 1 &&
      !rs.any fun r => r.extent.has f.extent.start
  global.flatMap fun f =>
    let later := (rs.map (·.extent.start)).filter (f.extent.start < ·)
    let stop := later.min?.getD o.closing
    t.declarations ⟨f.extent.stop, stop⟩ false

/-- The symbols of an object, the first of them at position `first`, and its node. -/
def resolveObject (t : Text) (first : SymbolId) (o : ObjectSite) :
    Except ResolveError (List Symbol × Outline) :=
  match t.routines o.members with
  | .error e => .error e
  | .ok rs =>
    let state := ((t.property? obsoleteState o.members (t.depth o.opening + 1)).bind fun r =>
      ObsoleteState.ofProperty? (t.masked.slice r).text).getD .current
    let symbol : Symbol := { kind := o.kind, name := t.name o.name, obsolete := state }
    let records := declare .globalVariable true (first + 1) (implicitRecords (recordTable? t o))
    let declared := declare .globalVariable false (first + 1 + records.length)
      (globalDeclarations t o rs)
    let globals := records ++ declared
    let procedures := (rs.filter (·.kind == .procedure)).map fun r => t.name r.name
    let routines := resolveRoutines t first globals procedures (first + 1 + globals.length) rs
    let entry : Entry :=
      { plainEntry .objectDeclaration (t.span ⟨o.start, o.closing + 1⟩) first with
        symbol := some first }
    .ok (symbol :: globals.map (Variable.toSymbol first) ++ routines.1, .single entry routines.2)

/-- The symbols and nodes of the objects of a list of headers. A header inside braces, or before
the end of the object before it, is skipped. -/
def resolveObjects (t : Text) : Nat → SymbolId → List (Found ObjectHeader) →
    Except ResolveError (List Symbol × Outline)
  | _, _, [] => .ok ([], .empty)
  | resume, first, h :: hs =>
    if h.extent.start < resume ∨ t.depth h.extent.start ≠ 0 then resolveObjects t resume first hs
    else
      match objectSite t h with
      | .error e => .error e
      | .ok site =>
        match resolveObject t first site with
        | .error e => .error e
        | .ok (symbols, outline) =>
          match resolveObjects t (site.closing + 1) (first + symbols.length) hs with
          | .error e => .error e
          | .ok (symbols', outline') => .ok (symbols ++ symbols', outline.append outline')

/-- The document of a source text. -/
def resolveDocument (path source : String) : Except ResolveError Document :=
  let t := Text.ofCells (Cells.ofString source)
  match resolveObjects t 0 0 (objectHeader.all ⟨none, 0, t.bare⟩) with
  | .error e => .error e
  | .ok (symbols, objects) =>
    let unit : Entry := { kind := .compilationUnit, span := t.span ⟨0, t.length⟩ }
    .ok { path, source := some source, symbols
          nodes := (Outline.single unit objects).nodesFrom none 0 }

/-- The tree of a source text. -/
def resolve (path source : String) : Except ResolveError Tree :=
  match resolveDocument path source with
  | .error e => .error e
  | .ok d =>
    match Tree.ofDocument d with
    | .ok tree => .ok tree
    | .error e => .error (.tree e)

end Source
end TreeLint
