/-
# Nodes before they are numbered

An outline is a list of nodes, each with the outline of the nodes below it. It
has no positions: the positions are those of the walk that lists a node, then
what is below it, then what follows it. Calls bind their arguments, in order, to
the argument nodes directly below them.

Key definitions: `Source.Entry`, `Source.Outline`, `Outline.size`,
`Outline.nodesFrom`.
-/
import TreeLint.Semantic.Tree

namespace TreeLint
namespace Source

/-- What is known of a node before it has a position. A call has its method and, for each
argument node below it, the parameter it is bound to. -/
structure Entry where
  kind : NodeKind
  span : Span
  symbol : Option SymbolId := none
  resolvedType : Option TypeInfo := none
  containingSymbol : Option SymbolId := none
  target : Option (TargetMethod × List (Option String)) := none
deriving Repr

/-- A list of nodes, each with the nodes below it. -/
inductive Outline where
  | empty
  | node (entry : Entry) (below : Outline) (next : Outline)
deriving Repr

namespace Outline

/-- One node with the nodes below it. -/
def single (e : Entry) (below : Outline) : Outline := .node e below .empty

/-- Two outlines, one after the other. -/
def append : Outline → Outline → Outline
  | .empty, o => o
  | .node e below next, o => .node e below (next.append o)

/-- How many nodes an outline has. -/
def size : Outline → Nat
  | .empty => 0
  | .node _ below next => 1 + below.size + next.size

/-- The positions of the argument nodes at the top of an outline whose first node has the
position `first`. -/
def argumentIds (first : NodeId) : Outline → List NodeId
  | .empty => []
  | .node e below next =>
    if e.kind = .argument then first :: next.argumentIds (first + 1 + below.size)
    else next.argumentIds (first + 1 + below.size)

/-- The facts of a call whose arguments have the given positions. -/
def invocationOf (target : TargetMethod × List (Option String)) (ids : List NodeId) : Invocation :=
  ⟨target.1, List.zipWith (fun p i => ⟨p, some i⟩) target.2 ids⟩

/-- The node of an entry at position `id`, above the outline `below`. -/
def toNode (e : Entry) (parent : Option NodeId) (id : NodeId) (below : Outline) : Node where
  kind := e.kind
  span := e.span
  parent
  symbol := e.symbol
  resolvedType := e.resolvedType
  containingSymbol := e.containingSymbol
  invocation := e.target.map fun target => invocationOf target (below.argumentIds (id + 1))

/-- The nodes of an outline under a parent, the first of them at position `first`. -/
def nodesFrom (parent : Option NodeId) (first : NodeId) : Outline → List Node
  | .empty => []
  | .node e below next =>
    toNode e parent first below ::
      (below.nodesFrom (some first) (first + 1) ++ next.nodesFrom parent (first + 1 + below.size))

end Outline
end Source
end TreeLint
