/-
# Resolved documents

A document is a list of symbols and a list of nodes in document order; both
refer to each other by position. A host may export anything, so a document is
checked before it is used: it must not be too large, containment of symbols must
be well-founded and in range, a node's parent must come before the node, and every
other reference must exist. A tree is a document that passed, with the child list of each node.

Key definitions: `Symbol`, `Node`, `Document`, `Document.defect?`, `Tree`,
`Tree.ofDocument`.
-/
import TreeLint.Semantic.Kind
import TreeLint.Text.Position

namespace TreeLint

/-- The position of a node in its document. -/
abbrev NodeId := Nat

/-- The position of a symbol in its document. -/
abbrev SymbolId := Nat

/-- A resolved type. -/
structure TypeInfo where
  kind : TypeKind
  name : Option String := none
  temporary : Bool := false
deriving DecidableEq, Repr

/-- Whether values of the type are rows of a table. -/
def TypeInfo.isRecord (t : TypeInfo) : Bool := t.kind == .record

/-- A declared thing: an object, a routine, a field or a variable. -/
structure Symbol where
  kind : SymbolKind
  name : String
  obsolete : ObsoleteState := .current
  containing : Option SymbolId := none
  declaredType : Option TypeInfo := none
deriving DecidableEq, Repr

/-- The method that a call resolves to. -/
structure TargetMethod where
  name : String
  kind : MethodKind
deriving DecidableEq, Repr

/-- An argument of a call: the parameter it is bound to and the node that holds it, where they
are known. -/
structure BoundArgument where
  parameter : Option String := none
  value : Option NodeId := none
deriving DecidableEq, Repr

/-- Whether the argument is bound to the parameter of that name. -/
def BoundArgument.binds (a : BoundArgument) (name : String) : Bool :=
  match a.parameter with
  | some p => Name.same p name
  | none => false

/-- What is known of a call. -/
structure Invocation where
  method : TargetMethod
  arguments : List BoundArgument := []
deriving DecidableEq, Repr

/-- A node of a document. -/
structure Node where
  kind : NodeKind
  span : Span
  parent : Option NodeId := none
  symbol : Option SymbolId := none
  resolvedType : Option TypeInfo := none
  containingSymbol : Option SymbolId := none
  invocation : Option Invocation := none
deriving DecidableEq, Repr

/-- A document as it is exported: symbols, and nodes in document order. -/
structure Document where
  path : String
  source : Option String := none
  symbols : List Symbol := []
  nodes : List Node := []
deriving DecidableEq, Repr

/-- Why a document cannot be used. -/
inductive TreeError where
  | parentOrder (node parent : NodeId)
  | unknownSymbol (node : NodeId) (symbol : SymbolId)
  | unknownContaining (symbol containing : SymbolId)
  | symbolCycle (symbol : SymbolId)
  | unknownArgument (node value : NodeId)
  | tooLarge
deriving DecidableEq, Repr

/-- A node's position as it is written in messages. -/
def NodeId.display (n : NodeId) : String := "#" ++ toString n

/-- The text of a defect. -/
def TreeError.message : TreeError → String
  | .parentOrder n p => s!"node {n.display} has parent {p.display} which does not precede it"
  | .unknownSymbol n s => s!"node {n.display} references unknown symbol {s}"
  | .unknownContaining s c => s!"symbol {s} is contained in unknown symbol {c}"
  | .symbolCycle s => s!"symbol {s} is its own ancestor"
  | .unknownArgument n v => s!"argument of node {n.display} points at unknown node {v.display}"
  | .tooLarge => "tree has too many nodes"

namespace Document

/-- The symbol that the symbol at `s` is declared in. -/
def containing? (d : Document) (s : SymbolId) : Option SymbolId :=
  match d.symbols[s]? with
  | some x => x.containing
  | none => none

/-- Whether there are few enough nodes and symbols: a position has 32 bits. -/
def fits (d : Document) : Bool :=
  d.nodes.length < UInt32.size && d.symbols.length < UInt32.size

/-- A symbol whose containing symbol is not in the document. -/
def rangeDefect? (d : Document) : Symbol × SymbolId → Option TreeError
  | (x, i) =>
    match x.containing with
    | some c => if c < d.symbols.length then none else some (.unknownContaining i c)
    | none => none

/-- Whether the containment chain ends within the given number of steps. -/
def chainEnds (d : Document) : Nat → Option SymbolId → Bool
  | _, none => true
  | 0, some _ => false
  | steps + 1, some s => chainEnds d steps (d.containing? s)

/-- A symbol from which the containment chain does not end: a chain longer than the list of
symbols runs in a circle. -/
def cycleDefect? (d : Document) : Symbol × SymbolId → Option TreeError
  | (x, i) => if d.chainEnds d.symbols.length x.containing then none else some (.symbolCycle i)

/-- The first of the symbol references that does not exist. -/
def symbolDefect? (d : Document) (node : NodeId) (refs : List (Option SymbolId)) :
    Option TreeError :=
  refs.findSome? fun
    | some s => if s < d.symbols.length then none else some (.unknownSymbol node s)
    | none => none

/-- The first argument whose value does not exist. -/
def argumentDefect? (d : Document) (node : NodeId) (arguments : List BoundArgument) :
    Option TreeError :=
  arguments.findSome? fun a =>
    match a.value with
    | some v => if v < d.nodes.length then none else some (.unknownArgument node v)
    | none => none

/-- The first defect of a node: its parent, then its symbols, then its arguments. -/
def nodeDefect? (d : Document) : Node × NodeId → Option TreeError
  | (n, i) =>
    let parent := match n.parent with
      | some p => if p < i then none else some (TreeError.parentOrder i p)
      | none => none
    let arguments := match n.invocation with
      | some call => call.arguments
      | none => []
    parent
      |>.or (d.symbolDefect? i [n.symbol, n.containingSymbol])
      |>.or (d.argumentDefect? i arguments)

/-- The first defect of a document: its size, then containment out of range, then circular
containment, then the nodes in order. -/
def defect? (d : Document) : Option TreeError :=
  (if d.fits then none else some .tooLarge)
    |>.or (d.symbols.zipIdx.findSome? d.rangeDefect?)
    |>.or (d.symbols.zipIdx.findSome? d.cycleDefect?)
    |>.or (d.nodes.zipIdx.findSome? d.nodeDefect?)

/-- The parent and the position of every node that has a parent. -/
def parents (d : Document) : List (NodeId × NodeId) :=
  d.nodes.zipIdx.filterMap fun (n, i) => n.parent.map fun p => (p, i)

/-- The positions that are listed with the parent `p`, in order. -/
def childrenAmong (parents : List (NodeId × NodeId)) (p : NodeId) : List NodeId :=
  parents.filterMap fun (q, i) => if q = p then some i else none

/-- The nodes whose parent is `p`, in document order. -/
def childrenOf (d : Document) (p : NodeId) : List NodeId := childrenAmong d.parents p

end Document

/-- A document without defects, with the child list of every node. -/
structure Tree extends Document where
  children : List (List NodeId)
deriving DecidableEq, Repr

namespace Tree

/-- The tree of a document, or the first defect of the document. -/
def ofDocument (d : Document) : Except TreeError Tree :=
  match d.defect? with
  | some e => .error e
  | none =>
    let parents := d.parents
    .ok { d with children := (List.range d.nodes.length).map (Document.childrenAmong parents) }

/-- The tree without its source text. -/
def withoutSource (t : Tree) : Tree := { t with source := none }

end Tree
end TreeLint
