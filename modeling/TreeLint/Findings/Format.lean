/-
# Findings as JSON

The exchange format of diagnostics, directives, faults and findings.

Key definitions: `Diagnostic.toJson`, `Findings.toJson`, `Findings.ofJson?`.
-/
import TreeLint.Findings.Basic
import TreeLint.Semantic.Format

namespace TreeLint

open Json

namespace Diagnostic

/-- The JSON value of a diagnostic. -/
def toJson (d : Diagnostic) : Json := .obj [
  ("id", .str d.id), ("severity", .str d.severity.name), ("file", .str d.file),
  ("span", d.span.toJson), ("message", .str d.message)]

/-- Reads a diagnostic. -/
def ofJson? (v : Json) : Option Diagnostic := do
  let fs ← fields? ["id", "severity", "file", "span", "message"] v
  let id ← field? fs "id" text?
  let severity ← field? fs "severity" (tag? Severity.ofName?)
  let file ← field? fs "file" text?
  let span ← field? fs "span" Span.ofJson?
  let message ← field? fs "message" text?
  return ⟨id, severity, file, span, message⟩

end Diagnostic

namespace Pragma

/-- The JSON value of a directive. -/
def toJson (p : Pragma) : Json := .obj [
  ("action", .str p.action.name), ("ids", .arr (p.ids.map Json.str)), ("line", nat p.line),
  ("offset", nat p.offset)]

/-- Reads a directive. -/
def ofJson? (v : Json) : Option Pragma := do
  let fs ← fields? ["action", "ids", "line", "offset"] v
  let action ← field? fs "action" (tag? PragmaAction.ofName?)
  let ids ← field? fs "ids" (list? text?)
  let line ← field? fs "line" count?
  let offset ← field? fs "offset" count?
  return ⟨action, ids, line, offset⟩

end Pragma

namespace Suppressed

/-- The JSON value of a suppressed diagnostic. -/
def toJson (s : Suppressed) : Json :=
  .obj [("diagnostic", s.diagnostic.toJson), ("pragma", s.pragma.toJson)]

/-- Reads a suppressed diagnostic. -/
def ofJson? (v : Json) : Option Suppressed := do
  let fs ← fields? ["diagnostic", "pragma"] v
  let diagnostic ← field? fs "diagnostic" Diagnostic.ofJson?
  let pragma ← field? fs "pragma" Pragma.ofJson?
  return ⟨diagnostic, pragma⟩

end Suppressed

namespace Fault

/-- The JSON value of a fault. -/
def toJson (f : Fault) : Json := .obj [
  ("rule_id", .str f.ruleId), ("file", .str f.file), ("span", f.span.toJson),
  ("message", .str f.message)]

/-- Reads a fault. -/
def ofJson? (v : Json) : Option Fault := do
  let fs ← fields? ["rule_id", "file", "span", "message"] v
  let ruleId ← field? fs "rule_id" text?
  let file ← field? fs "file" text?
  let span ← field? fs "span" Span.ofJson?
  let message ← field? fs "message" text?
  return ⟨ruleId, file, span, message⟩

end Fault

namespace Findings

/-- The JSON value of findings. -/
def toJson (f : Findings) : Json := .obj [
  ("diagnostics", .arr (f.diagnostics.map Diagnostic.toJson)),
  ("suppressed", .arr (f.suppressed.map Suppressed.toJson)),
  ("faults", .arr (f.faults.map Fault.toJson)),
  ("trees_analyzed", nat f.treesAnalyzed), ("nodes_visited", nat f.nodesVisited)]

/-- Reads findings. -/
def ofJson? (v : Json) : Option Findings := do
  let fs ← fields? ["diagnostics", "suppressed", "faults", "trees_analyzed", "nodes_visited"] v
  let diagnostics ← field? fs "diagnostics" (list? Diagnostic.ofJson?)
  let suppressed ← fieldOr fs "suppressed" [] (list? Suppressed.ofJson?)
  let faults ← fieldOr fs "faults" [] (list? Fault.ofJson?)
  let treesAnalyzed ← field? fs "trees_analyzed" count?
  let nodesVisited ← fieldOr fs "nodes_visited" 0 count?
  return ⟨diagnostics, suppressed, faults, treesAnalyzed, nodesVisited⟩

end Findings
end TreeLint
