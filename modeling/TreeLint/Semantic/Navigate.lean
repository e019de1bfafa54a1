/-
# Moving about in a tree

Children, ancestors and descendants of a node, the object that encloses a
symbol, and the roots. Walks are bounded by what a tree guarantees: a parent
comes before its child, so a chain of parents from node `n` has at most `n`
steps; a walk below a node meets each node at most once; a containment chain is
no longer than the list of symbols.

Key definitions: `Tree.childIds`, `Tree.ancestors`, `Tree.walk`,
`Tree.descendants`, `Tree.containingObject?`, `Tree.roots`, `Tree.nodeText?`.
-/
import TreeLint.Semantic.Tree

namespace TreeLint
namespace Tree

/-- The node at a position. -/
def node? (t : Tree) (n : NodeId) : Option Node := t.nodes[n]?

/-- The symbol at a position. -/
def symbol? (t : Tree) (s : SymbolId) : Option Symbol := t.symbols[s]?

/-- The children of a node, in document order. -/
def childIds (t : Tree) (n : NodeId) : List NodeId := t.children.getD n []

/-- The parent of a node. -/
def parent? (t : Tree) (n : NodeId) : Option NodeId := (t.node? n).bind (·.parent)

/-- The chain of parents of a node, nearest first, up to a number of steps. -/
def ancestorsWithin (t : Tree) : Nat → NodeId → List NodeId
  | 0, _ => []
  | steps + 1, n =>
    match t.parent? n with
    | some p => p :: ancestorsWithin t steps p
    | none => []

/-- The ancestors of a node, nearest first. -/
def ancestors (t : Tree) (n : NodeId) : List NodeId := t.ancestorsWithin n n

/-- The nodes met when the pending nodes are taken from the front and the children of each are
put in its place, up to a number of steps. -/
def walk (t : Tree) : Nat → List NodeId → List NodeId
  | 0, _ => []
  | _, [] => []
  | steps + 1, n :: pending => n :: walk t steps (t.childIds n ++ pending)

/-- The nodes below a node, in document order. -/
def descendants (t : Tree) (n : NodeId) : List NodeId := t.walk t.nodes.length (t.childIds n)

/-- A node and the nodes below it, in document order. -/
def descendantsAndSelf (t : Tree) (n : NodeId) : List NodeId := t.walk t.nodes.length [n]

/-- The nodes without a parent. -/
def roots (t : Tree) : List NodeId :=
  (t.nodes.zipIdx.filter fun (n, _) => n.parent.isNone).map (·.2)

/-- The first object met on the containment chain, up to a number of steps. -/
def objectWithin (t : Tree) : Nat → SymbolId → Option SymbolId
  | 0, _ => none
  | steps + 1, s =>
    match t.symbol? s with
    | none => none
    | some x =>
      if x.kind.isObject then some s
      else match x.containing with
        | some c => objectWithin t steps c
        | none => none

/-- The nearest object around a symbol, the symbol itself if it is one. -/
def containingObject? (t : Tree) (s : SymbolId) : Option SymbolId :=
  t.objectWithin t.symbols.length s

/-- The source text of a node, when there is source and its span is a range of it. -/
def nodeText? (t : Tree) (n : NodeId) : Option String := do
  let x ← t.node? n
  let source ← t.source
  (Cells.ofString source).slice? x.span.extent

end Tree
end TreeLint
