/-
# Diagnostics and the findings of an analysis

A diagnostic is one place in one document with a message. Findings collect what
an analysis gives: the diagnostics that are reported, those that a directive in
the source suppressed, the faults of rules, and how much was looked at.

Key definitions: `Diagnostic`, `Pragma`, `Suppressed`, `Fault`, `Findings`,
`Findings.merge`.
-/
import TreeLint.Catalog.Descriptor
import TreeLint.Text.Position

namespace TreeLint

/-- One place in one document, with a message. -/
structure Diagnostic where
  id : String
  severity : Severity
  file : String
  span : Span
  message : String
deriving DecidableEq, Repr

namespace Diagnostic

/-- What identifies a diagnostic: its id, its document and where it starts. -/
def key (d : Diagnostic) : String := s!"{d.id}|{d.file}|{d.span.startByte}"

/-- The same diagnostic at another severity. -/
def withSeverity (d : Diagnostic) (s : Severity) : Diagnostic := { d with severity := s }

end Diagnostic

/-- What a directive does to the diagnostics after it. -/
inductive PragmaAction where
  | disable
  | restore
deriving DecidableEq, Repr

namespace PragmaAction

/-- The name of an action. -/
def name : PragmaAction → String
  | .disable => "disable"
  | .restore => "restore"

/-- The action of exactly that name. -/
def ofName? (s : String) : Option PragmaAction := [disable, restore].find? (·.name == s)

end PragmaAction

/-- A directive in source text: what it does, to which ids (to all, if it lists none), and where
its line starts. -/
structure Pragma where
  action : PragmaAction
  ids : List String
  line : Nat
  offset : Nat
deriving DecidableEq, Repr

/-- A diagnostic that a directive suppressed. -/
structure Suppressed where
  diagnostic : Diagnostic
  pragma : Pragma
deriving DecidableEq, Repr

/-- A rule that failed at a node. -/
structure Fault where
  ruleId : String
  file : String
  span : Span
  message : String
deriving DecidableEq, Repr

/-- What an analysis gives. -/
structure Findings where
  diagnostics : List Diagnostic := []
  suppressed : List Suppressed := []
  faults : List Fault := []
  treesAnalyzed : Nat := 0
  nodesVisited : Nat := 0
deriving DecidableEq, Repr

namespace Findings

/-- No findings. -/
def empty : Findings := {}

/-- The findings of two analyses, one after the other. -/
def merge (a b : Findings) : Findings where
  diagnostics := a.diagnostics ++ b.diagnostics
  suppressed := a.suppressed ++ b.suppressed
  faults := a.faults ++ b.faults
  treesAnalyzed := a.treesAnalyzed + b.treesAnalyzed
  nodesVisited := a.nodesVisited + b.nodesVisited

/-- The findings of several analyses, in order. -/
def mergeAll (fs : List Findings) : Findings := fs.foldl merge empty

/-- Whether a diagnostic is an error. -/
def hasErrors (f : Findings) : Bool := f.diagnostics.any (·.severity == .error)

/-- The reported diagnostics with an id. -/
def withId (f : Findings) (id : String) : List Diagnostic := f.diagnostics.filter (·.id == id)

/-- How many reported diagnostics have an id. -/
def count (f : Findings) (id : String) : Nat := (f.withId id).length

end Findings
end TreeLint
