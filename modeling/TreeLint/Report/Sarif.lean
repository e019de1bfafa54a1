/-
# SARIF logs

The static analysis results interchange format: one run of the tool, with one
result per reported diagnostic in order, and one entry for each id among them
that the catalog knows, in the order of the ids. Lines and columns start at one.

Key definitions: `Sarif.Entry`, `Sarif.Region`, `Sarif.Result`, `Sarif.Log`,
`Sarif.Entry.of`, `Sarif.Result.of`, `Sarif.Log.of`, `Sarif.Log.toJson`.
-/
import TreeLint.Files.Path
import TreeLint.Report.Structured

namespace TreeLint
namespace Sarif

open Json

/-- The level of a severity. -/
def level : Severity → String
  | .error => "error"
  | .warning => "warning"
  | .info => "note"
  | .hidden => "none"

/-- What a log says of an id: its name, its texts, where to read more, and the level and whether it
is on without a configuration. -/
structure Entry where
  id : String
  name : String
  shortDescription : String
  fullDescription : Option String
  helpUri : String
  level : String
  enabled : Bool
deriving DecidableEq, Repr

/-- A region of a file. -/
structure Region where
  startLine : Nat
  startColumn : Nat
  endLine : Nat
  endColumn : Nat
deriving DecidableEq, Repr

/-- One result: which id, how serious, what and where. -/
structure Result where
  ruleId : String
  level : String
  message : String
  uri : String
  region : Region
deriving DecidableEq, Repr

/-- A log of one run: the entries of the ids reported, and the results. -/
structure Log where
  rules : List Entry
  results : List Result
deriving DecidableEq, Repr

/-- The entry of a descriptor; an empty description is left out. -/
def Entry.of (p : Descriptor) : Entry where
  id := p.id
  name := p.name
  shortDescription := p.title
  fullDescription := if p.description.isEmpty then none else some p.description
  helpUri := Descriptor.helpUri p.id
  level := Sarif.level p.severity
  enabled := p.enabledByDefault

/-- The region of a span. -/
def Region.ofSpan (s : Span) : Region :=
  ⟨max s.startLine 1, max s.startCol 1, max s.endLine 1, max s.endCol 1⟩

/-- The result of a diagnostic, with its file as seen from a base path. -/
def Result.of (base : String) (d : Diagnostic) : Result :=
  ⟨d.id, Sarif.level d.severity, d.message, Path.relativeTo base d.file, Region.ofSpan d.span⟩

/-- Puts an id in its place among ids in order, unless it is there. -/
def insertId (id : String) : List String → List String
  | [] => [id]
  | k :: ks =>
    if id = k then k :: ks else if id < k then id :: k :: ks else k :: insertId id ks

/-- The distinct ids of diagnostics, in order. -/
def reportedIds (ds : List Diagnostic) : List String :=
  ds.foldl (fun ids d => insertId d.id ids) []

/-- The log of findings. -/
def Log.of (base : String) (catalog : Catalog) (f : Findings) : Log where
  rules := ((reportedIds f.diagnostics).filterMap catalog.get?).map Entry.of
  results := f.diagnostics.map (Result.of base)

/-- The version of the format. -/
def version : String := "2.1.0"

/-- The address of the schema. -/
def schema : String :=
  "https://raw.githubusercontent.com/oasis-tcs/sarif-spec/master/Schemata/sarif-schema-2.1.0.json"

/-- The address of information on the tool. -/
def informationUri : String := "https://github.com/StefanMaron/BusinessCentral.LinterCop"

/-- A text as a message. -/
def text (s : String) : Json := .obj [("text", .str s)]

/-- The JSON value of an entry. -/
def Entry.toJson (e : Entry) : Json := .obj (
  [("id", .str e.id), ("name", .str e.name), ("shortDescription", text e.shortDescription)] ++
  optField "fullDescription" text e.fullDescription ++
  [("helpUri", .str e.helpUri),
    ("defaultConfiguration", .obj [("level", .str e.level), ("enabled", .bool e.enabled)])])

/-- The JSON value of a region. -/
def Region.toJson (r : Region) : Json := .obj [
  ("startLine", nat r.startLine), ("startColumn", nat r.startColumn), ("endLine", nat r.endLine),
  ("endColumn", nat r.endColumn)]

/-- The JSON value of a result. -/
def Result.toJson (r : Result) : Json := .obj [
  ("ruleId", .str r.ruleId), ("level", .str r.level), ("message", text r.message),
  ("locations", .arr [.obj [("physicalLocation", .obj [
    ("artifactLocation", .obj [("uri", .str r.uri)]), ("region", r.region.toJson)])]])]

/-- The JSON value of a log. -/
def Log.toJson (l : Log) : Json := .obj [
  ("version", .str Sarif.version), ("$schema", .str schema),
  ("runs", .arr [.obj [
    ("tool", .obj [("driver", .obj [
      ("name", .str Report.toolName), ("version", .str Report.version),
      ("informationUri", .str informationUri), ("rules", .arr (l.rules.map Entry.toJson))])]),
    ("results", .arr (l.results.map Result.toJson))]])]

end Sarif
end TreeLint
