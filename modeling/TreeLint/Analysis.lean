/-
# Analysis of trees

A dispatcher holds rules and runs, for each node, the rules that subscribe to
the node's kind, in the order of their registration. A rule runs only if one of
its descriptors is enabled; a diagnostic is kept only if its id is enabled, at
the severity in force. A rule that fails gives a fault and, if that is enabled,
a diagnostic about the fault; the analysis goes on.

A host may visit the nodes of a tree itself and close the tree when it is done:
then the directives in the source of the tree are applied.

Key definitions: `Dispatcher`, `Dispatcher.registering`, `Dispatcher.register`,
`Dispatcher.withConfig`, `Dispatcher.visit`, `Dispatcher.finish`, `Dispatcher.analyze`,
`Dispatcher.analyzeAll`.
-/
import TreeLint.Config.Basic
import TreeLint.Findings.Suppression
import TreeLint.Rule.HelperCodeunit
import TreeLint.Rule.RunTrigger

namespace TreeLint

/-- Why a dispatcher cannot be set up. -/
inductive EngineError where
  | catalog (e : CatalogError)
  | unknownDescriptor (rule id : String)
  | duplicateRule (rule : String)
  | invalidConfig (e : ConfigError)
deriving DecidableEq, Repr

/-- The text of an error. -/
def EngineError.message : EngineError → String
  | .catalog e => e.message
  | .unknownDescriptor rule id =>
    s!"rule {rule} declares descriptor {id} which is not in the catalog"
  | .duplicateRule rule => s!"rule {rule} is registered twice"
  | .invalidConfig e => "invalid configuration: " ++ e.message

/-- Rules in the order of their registration, the positions of the rules that subscribe to each
kind of node, the severities of the enabled ids, and the patterns of the documents left out. -/
structure Dispatcher where
  catalog : Catalog
  rules : List Rule := []
  byKind : NodeKind → List Nat := fun _ => []
  severities : List (String × Severity)
  exclusions : List Glob.Matcher := []

namespace Dispatcher

/-- The severities of the ids that a configuration leaves enabled. -/
def effectiveSeverities (catalog : Catalog) (config : Config) : List (String × Severity) :=
  catalog.primaries.filterMap fun d => (config.effectiveSeverity? d).map fun s => (d.id, s)

/-- A dispatcher without rules. -/
def new (catalog : Catalog) : Dispatcher where
  catalog
  severities := effectiveSeverities catalog {}

/-- The dispatcher under a configuration. -/
def withConfig (d : Dispatcher) (config : Config) : Except EngineError Dispatcher :=
  match config.exclusions with
  | .error e => .error (.invalidConfig e)
  | .ok exclusions =>
    .ok { d with exclusions, severities := effectiveSeverities d.catalog config }

/-- Subscribes the rule at a position to a kind. -/
def subscribe (table : NodeKind → List Nat) (index : Nat) (kind : NodeKind) : NodeKind → List Nat :=
  fun k =>
    if k = kind ∧ ¬ (table k).contains index then table k ++ [index] else table k

/-- Registers a rule: its id and its descriptors are looked at first, then the rule subscribes to
its kinds and is listed. -/
def registering (rule : Rule) : Action EngineError Dispatcher Unit := do
  if (← get).rules.any (·.ruleId == rule.ruleId) then
    throw (.duplicateRule rule.ruleId)
  forM rule.descriptors fun id => do
    if !(← get).catalog.contains id then
      throw (.unknownDescriptor rule.ruleId id)
  let index := (← get).rules.length
  forM rule.kinds fun kind => modify fun d => { d with byKind := subscribe d.byKind index kind }
  modify fun d => { d with rules := d.rules ++ [rule] }

/-- The dispatcher with one more rule. -/
def register (d : Dispatcher) (rule : Rule) : Except EngineError Dispatcher :=
  (registering rule).result d

/-- Registers rules in order, up to the first error. -/
def registerAll (d : Dispatcher) : List Rule → Except EngineError Dispatcher
  | [] => .ok d
  | r :: rs =>
    match d.register r with
    | .ok d => d.registerAll rs
    | .error e => .error e

/-- The rules that come with the linter. -/
def builtinRules : List Rule := [Rule.runTrigger, Rule.helperCodeunit]

/-- The dispatcher over the catalog and the rules that come with the linter. -/
def builtin : Except EngineError Dispatcher := (new Catalog.builtin).registerAll builtinRules

/-- The severity at which diagnostics of an id are reported, if they are. -/
def severityFor? (d : Dispatcher) (id : String) : Option Severity := d.severities.lookup id

/-- Whether the document of a path is left out. -/
def isExcluded (d : Dispatcher) (path : String) : Bool := d.exclusions.any (·.isMatch path)

/-- Whether a rule has an enabled descriptor. -/
def isEnabled (d : Dispatcher) (rule : Rule) : Bool :=
  rule.descriptors.any fun id => (d.severityFor? id).isSome

/-- The message of a failed check, if the check failed. -/
def faultMessage? : Outcome → Option String
  | .failed chain => some (String.intercalate ": " chain)
  | .brokeOff (some text) => some ("panicked: " ++ text)
  | .brokeOff none => some "panicked: unknown panic payload"
  | _ => none

/-- The diagnostic about a fault, if it is enabled. -/
def faultDiagnostic? (d : Dispatcher) (fault : Fault) : Option Diagnostic :=
  match d.severityFor? Catalog.errorInRule, d.catalog.get? Catalog.errorInRule with
  | some severity, some descriptor =>
    some ⟨descriptor.id, severity, fault.file, fault.span,
      descriptor.format [fault.ruleId, fault.message]⟩
  | _, _ => none

/-- What the outcome of a check adds to the findings. -/
def outcomeFindings (d : Dispatcher) (rule : Rule) (file : String) (span : Span)
    (outcome : Outcome) : Findings :=
  match outcome with
  | .nothing => .empty
  | .found x => { diagnostics := ((d.severityFor? x.id).map x.withSeverity).toList }
  | failure =>
    match faultMessage? failure with
    | none => .empty
    | some message =>
      let fault : Fault := ⟨rule.ruleId, file, span, message⟩
      { diagnostics := (d.faultDiagnostic? fault).toList, faults := [fault] }

/-- The context in which a rule checks a node. -/
def contextOf (d : Dispatcher) (t : Tree) (id : NodeId) (n : Node) (rule : Rule) : RuleContext :=
  ⟨t, id, n, d.catalog, rule.ruleId, rule.descriptors⟩

/-- What one rule adds to the findings at a node. -/
def runRule (d : Dispatcher) (t : Tree) (id : NodeId) (n : Node) (rule : Rule) : Findings :=
  if d.isEnabled rule then
    d.outcomeFindings rule t.path n.span (rule.check (d.contextOf t id n rule))
  else .empty

/-- The rules that subscribe to a kind. -/
def subscribers (d : Dispatcher) (kind : NodeKind) : List Rule :=
  (d.byKind kind).filterMap (d.rules[·]?)

/-- The findings after a node was visited. -/
def visit (d : Dispatcher) (t : Tree) (id : NodeId) (n : Node) (f : Findings) : Findings :=
  (d.subscribers n.kind).foldl (fun f rule => f.merge (d.runRule t id n rule))
    { f with nodesVisited := f.nodesVisited + 1 }

/-- The findings after all nodes of a tree were visited, in document order. -/
def visitAll (d : Dispatcher) (t : Tree) (f : Findings) : Findings :=
  t.nodes.zipIdx.foldl (fun f (n, id) => d.visit t id n f) f

/-- The findings after a tree was closed: the directives in its source are applied to all
diagnostics so far, and the tree is counted. -/
def finish (t : Tree) (f : Findings) : Findings :=
  let f := { f with treesAnalyzed := f.treesAnalyzed + 1 }
  match t.source with
  | none => f
  | some source =>
    let (active, suppressed) := Pragma.filter (Pragma.parse source) f.diagnostics
    { f with diagnostics := active, suppressed := f.suppressed ++ suppressed }

/-- The findings in one tree; a document that is left out gives none. -/
def analyze (d : Dispatcher) (t : Tree) : Findings :=
  if d.isExcluded t.path then .empty else finish t (d.visitAll t .empty)

/-- The findings in several trees, in order. -/
def analyzeAll (d : Dispatcher) (ts : List Tree) : Findings := Findings.mergeAll (ts.map d.analyze)

end Dispatcher
end TreeLint
