/-
# Reports as JSON

The report of an analysis and the listing of a catalog, for programs to read.
Lists of suppressed diagnostics and of faults are left out when they are empty.

Key definitions: `Report.version`, `Findings.report`, `Catalog.listing`.
-/
import TreeLint.Catalog.Basic
import TreeLint.Findings.Format

namespace TreeLint

open Json

namespace Report

/-- The name of the tool in its reports. -/
def toolName : String := "alcop"

/-- The version of the tool in its reports. -/
def version : String := "0.1.0"

/-- A list field that is left out when it is empty. -/
def listField (name : String) (items : List Json) : List (String × Json) :=
  if items.isEmpty then [] else [(name, .arr items)]

end Report

/-- A diagnostic in a report. -/
def Diagnostic.report (d : Diagnostic) : Json := .obj [
  ("id", .str d.id), ("severity", .str d.severity.name), ("file", .str d.file),
  ("line", nat d.span.startLine), ("column", nat d.span.startCol), ("message", .str d.message),
  ("help_uri", .str (Descriptor.helpUri d.id))]

/-- A suppressed diagnostic in a report, with the line of the directive. -/
def Suppressed.report (s : Suppressed) : Json :=
  .obj [("diagnostic", s.diagnostic.report), ("pragma_line", nat s.pragma.line)]

/-- A fault in a report. -/
def Fault.report (f : Fault) : Json := .obj [
  ("rule", .str f.ruleId), ("file", .str f.file), ("line", nat f.span.startLine),
  ("message", .str f.message)]

/-- The report of findings under a path. -/
def Findings.report (path : String) (f : Findings) : Json := .obj (
  [("version", .str Report.version), ("path", .str path), ("trees_analyzed", nat f.treesAnalyzed),
    ("diagnostics", .arr (f.diagnostics.map Diagnostic.report))] ++
  Report.listField "suppressed" (f.suppressed.map Suppressed.report) ++
  [("suppressed_count", nat f.suppressed.length)] ++
  Report.listField "faults" (f.faults.map Fault.report))

/-- A descriptor in a listing. -/
def Descriptor.listing (d : Descriptor) : Json := .obj (
  [("id", .str d.id), ("name", .str d.name), ("category", .str d.category),
    ("severity", .str d.severity.name), ("enabled_by_default", .bool d.enabledByDefault),
    ("title", .str d.title)] ++
  optField "alias_of" Json.str d.aliasOf ++
  [("help_uri", .str (Descriptor.helpUri d.id))])

/-- All descriptors of a catalog, in order. -/
def Catalog.listing (c : Catalog) : Json := .arr (c.descriptors.map Descriptor.listing)

end TreeLint
