/-
# Reports for a terminal

Key definitions: `Findings.pretty`, `Catalog.table`.
-/
import TreeLint.Report.Structured
import TreeLint.Report.Style

namespace TreeLint
namespace Report

/-- A painter: how text in a style is written. -/
abbrev Painter := Style → String → Nat → String

/-- Whether the report is in colour decides how text is painted. -/
def painter (color : Bool) : Painter := fun s text width => s.paint color text width

/-- Lines of text, each ended by a line break. -/
def unlines (lines : List String) : String := String.join (lines.map (· ++ "\n"))

/-- The tag of a severity. -/
def severityTag (p : Painter) : Severity → String
  | .error => p (.colored .red) "ERROR" 0
  | .warning => p (.colored .yellow) "WARN " 0
  | .info => p (.colored .blue) "INFO " 0
  | .hidden => p .dimmed "HIDE " 0

/-- The lines of a diagnostic. -/
def diagnosticLines (p : Painter) (d : Diagnostic) : List String := [
  "    " ++ severityTag p d.severity ++ "    " ++ p .dimmed d.id 8 ++ p (.colored .blue) d.file 0 ++
    p .dimmed s!":{d.span.startLine}:{d.span.startCol}" 0,
  "            " ++ d.message,
  ""]

/-- The part on diagnostics. -/
def diagnosticsPart (p : Painter) (ds : List Diagnostic) : List String :=
  if ds.isEmpty then []
  else ["  " ++ p .bold "Diagnostics" 0 ++ s!" ({ds.length}):", ""] ++
    ds.flatMap (diagnosticLines p) ++ [""]

/-- The lines of a suppressed diagnostic. -/
def suppressedLines (p : Painter) (s : Suppressed) : List String :=
  ("    " ++ p .dimmed s.diagnostic.id 8 ++ p (.colored .blue) s.diagnostic.file 0 ++
    p .dimmed s!":{s.diagnostic.span.startLine}" 0) ::
  (if s.pragma.action = .disable then
    ["            " ++ p .dimmed s!"#pragma warning disable at line {s.pragma.line}" 0]
  else [])

/-- The part on suppressed diagnostics, with or without details. -/
def suppressedPart (p : Painter) (details : Bool) (ss : List Suppressed) : List String :=
  if ss.isEmpty then []
  else ["  " ++ p .dimmed "Suppressed" 0 ++ s!" ({ss.length}):"] ++
    (if details then "" :: ss.flatMap (suppressedLines p)
    else ["    " ++ p .dimmed "(use --show-suppressed to see details)" 0]) ++ [""]

/-- The lines of a fault. -/
def faultLines (p : Painter) (f : Fault) : List String := [
  "    " ++ p .dimmed f.ruleId 24 ++ p (.colored .blue) f.file 0 ++
    p .dimmed s!":{f.span.startLine}" 0,
  "            " ++ f.message]

/-- The part on faults. -/
def faultsPart (p : Painter) (fs : List Fault) : List String :=
  if fs.isEmpty then []
  else ["  " ++ p ⟨.bold, some .yellow⟩ "Rule faults" 0 ++ s!" ({fs.length}):"] ++
    fs.flatMap (faultLines p) ++ [""]

/-- How many diagnostics have a severity. -/
def countAt (s : Severity) (ds : List Diagnostic) : Nat := (ds.filter (·.severity == s)).length

/-- The last line: counts and verdict. -/
def verdict (p : Painter) (f : Findings) : String :=
  let count s := countAt s f.diagnostics
  "  " ++
  p .dimmed s!"{count .error} errors, {count .warning} warnings, {count .info} info" 0 ++ "  " ++
  (if f.hasErrors then p (.colored .red) "FAILED" 0 else p (.colored .green) "PASSED" 0)

/-- A line of the table of descriptors. -/
def descriptorLine (p : Painter) (d : Descriptor) : String :=
  "  " ++ p .bold d.id 0 ++ "  " ++
  (if d.enabledByDefault then p (.colored .green) "on " 0 else p .dimmed "off" 0) ++ "  " ++
  p {} d.severity.name 8 ++ d.title ++
  (match d.aliasOf with
    | some primary => "  " ++ p .dimmed s!"(alias of {primary})" 0
    | none => "")

end Report

open Report

/-- The report of findings under a path, for a terminal. -/
def Findings.pretty (path : String) (showSuppressed color : Bool) (f : Findings) : String :=
  let p := painter color
  unlines (
    ["", "  " ++ p ⟨.bold, some .cyan⟩ toolName 0 ++ " v" ++ version, "",
      "  " ++ p .dimmed "Checking: " 0 ++ path,
      "  " ++ p .dimmed "Trees:    " 0 ++ toString f.treesAnalyzed, ""] ++
    diagnosticsPart p f.diagnostics ++
    suppressedPart p showSuppressed f.suppressed ++
    faultsPart p f.faults ++
    [verdict p f, ""])

/-- The table of a catalog's descriptors, for a terminal. -/
def Catalog.table (color : Bool) (c : Catalog) : String :=
  unlines ([""] ++ c.descriptors.map (descriptorLine (painter color)) ++ [""])

end TreeLint
