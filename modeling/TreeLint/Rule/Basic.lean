/-
# Rules

A rule subscribes to kinds of nodes, declares the descriptors it may report, and
has a check. The check looks at one node in its context and answers nothing, a
diagnostic, or that it failed: with an error, which is a chain of messages from
the outermost in, or by breaking off, with or without a text.

Code in an obsolete symbol, or in an object that is obsolete, is exempt from
every rule that ships with the linter.

Key definitions: `Outcome`, `RuleContext`, `RuleContext.diagnostic`, `Rule`,
`Tree.isExempt`, `Tree.isNodeExempt`.
-/
import TreeLint.Catalog.Builtin
import TreeLint.Findings.Basic
import TreeLint.Semantic.Navigate

namespace TreeLint

namespace Tree

/-- Whether the symbol at a position is obsolete. -/
def isObsolete (t : Tree) (s : SymbolId) : Bool :=
  match t.symbol? s with
  | some x => x.obsolete.isObsolete
  | none => false

/-- Whether code declared in a symbol is exempt: the symbol or the object around it is
obsolete. -/
def isExempt (t : Tree) (s : Option SymbolId) : Bool :=
  match s with
  | none => false
  | some s =>
    t.isObsolete s ||
      match t.containingObject? s with
      | some o => t.isObsolete o
      | none => false

/-- Whether the node at a position is exempt. -/
def isNodeExempt (t : Tree) (n : NodeId) : Bool :=
  t.isExempt ((t.node? n).bind (·.containingSymbol))

end Tree

/-- What the check of a rule answers. -/
inductive Outcome where
  | nothing
  | found (d : Diagnostic)
  | failed (chain : List String)
  | brokeOff (text : Option String)
deriving DecidableEq, Repr

/-- What a check sees: a node of a tree, the catalog, and the rule's own id and descriptors. -/
structure RuleContext where
  tree : Tree
  nodeId : NodeId
  node : Node
  catalog : Catalog
  ruleId : String
  descriptors : List String

namespace RuleContext

/-- Whether the node is exempt. -/
def isExempt (c : RuleContext) : Bool := c.tree.isExempt c.node.containingSymbol

/-- A diagnostic of a descriptor that the rule declares, at a span, or a chain of messages. -/
def diagnosticAt (c : RuleContext) (id : String) (span : Span) (args : List String) :
    Except (List String) Diagnostic :=
  if c.descriptors.contains id then
    match c.catalog.lookup id with
    | .ok d => .ok ⟨d.id, d.severity, c.tree.path, span, d.format args⟩
    | .error e => .error [s!"rule {c.ruleId}", e.message]
  else .error [s!"rule {c.ruleId} reported undeclared descriptor {id}"]

/-- A diagnostic at the node. -/
def diagnostic (c : RuleContext) (id : String) (args : List String) :
    Except (List String) Diagnostic :=
  c.diagnosticAt id c.node.span args

/-- The outcome of reporting a diagnostic at the node. -/
def report (c : RuleContext) (id : String) (args : List String) : Outcome :=
  match c.diagnostic id args with
  | .ok d => .found d
  | .error chain => .failed chain

end RuleContext

/-- A rule: the kinds of nodes it looks at, the descriptors it may report, and its check. -/
structure Rule where
  ruleId : String
  descriptors : List String
  kinds : List NodeKind
  check : RuleContext → Outcome

namespace Rule

/-- The failure of a check that needs the target of a call that has none. -/
def noTarget (n : NodeId) : Outcome := .failed [s!"invocation {n.display} has no resolved target"]

/-- Looks at the built-in method that a call resolves to, unless the node is exempt. -/
def onBuiltInCall (c : RuleContext) (check : Invocation → Outcome) : Outcome :=
  if c.isExempt then .nothing
  else match c.node.invocation with
    | none => noTarget c.nodeId
    | some call => if call.method.kind = .builtInMethod then check call else .nothing

end Rule
end TreeLint
