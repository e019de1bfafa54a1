/-
# Fixtures of a rule

A fixture is a source text in which the places are marked where a rule is to
report an id. To check it, the marks are stripped, the text is resolved, and the
rule runs alone with all its descriptors enabled. A front end resolves the text;
the usual one is that of the linter.

Key definitions: `FixtureError`, `RuleFixture`, `RuleFixture.forRule`,
`RuleFixture.run`, `RuleFixture.hasDiagnostic`, `RuleFixture.noDiagnostic`.
-/
import TreeLint.Analysis
import TreeLint.Marker
import TreeLint.Source.Resolve

namespace TreeLint

/-- Resolves the source text of a path, or says why it cannot. -/
abbrev FrontEnd := String → String → Except String Tree

/-- The front end of the linter. -/
def FrontEnd.standard : FrontEnd := fun path source =>
  match Source.resolve path source with
  | .ok t => .ok t
  | .error e => .error e.message

/-- Why a fixture does not match what its rule reports. -/
inductive FixtureError where
  | markers (e : MarkerError)
  | noMarkers
  | unexpectedMarkers
  | frontEnd (message : String)
  | fault (rule message : String)
  | positions (id : String) (expected actual : List Extent)
deriving DecidableEq, Repr

namespace Fixture

/-- Intervals as they are written in messages. -/
def displayExtents (rs : List Extent) : String :=
  "[" ++ String.intercalate ", " (rs.map fun r => s!"{r.start}..{r.stop}") ++ "]"

/-- The path of a fixture in its findings. -/
def path : String := "fixture.al"

/-- The order of intervals: by start, then by end. -/
def extentLe (a b : Extent) : Bool := a.start < b.start || (a.start == b.start && a.stop ≤ b.stop)

end Fixture

/-- The text of an error. -/
def FixtureError.message : FixtureError → String
  | .markers e => e.message
  | .noMarkers => "has-diagnostic fixture contains no markers"
  | .unexpectedMarkers => "no-diagnostic fixture contains markers"
  | .frontEnd message => "fixture could not be resolved: " ++ message
  | .fault rule message => s!"rule {rule} faulted: {message}"
  | .positions id expected actual =>
    s!"{id} expected at " ++ Fixture.displayExtents expected ++ " but reported at " ++
      Fixture.displayExtents actual

/-- A dispatcher with the rule under test, and a front end. -/
structure RuleFixture where
  dispatcher : Dispatcher
  frontEnd : FrontEnd := FrontEnd.standard

namespace RuleFixture

/-- The fixture runner of one rule. -/
def forRule (rule : Rule) : Except EngineError RuleFixture :=
  match (Dispatcher.new Catalog.builtin).register rule with
  | .error e => .error e
  | .ok d =>
    match d.withConfig (Config.enabling Catalog.builtin rule.descriptors) with
    | .error e => .error e
    | .ok dispatcher => .ok { dispatcher }

/-- The same runner with another front end. -/
def withFrontEnd (f : RuleFixture) (frontEnd : FrontEnd) : RuleFixture := { f with frontEnd }

/-- Strips the marks of a fixture, resolves it and analyzes it. -/
def run (f : RuleFixture) (code : String) : Except FixtureError (MarkedSource × Findings) :=
  match MarkedSource.ofString code with
  | .error e => .error (.markers e)
  | .ok marked =>
    match f.frontEnd Fixture.path marked.source with
    | .error message => .error (.frontEnd message)
    | .ok tree =>
      let found := f.dispatcher.analyze tree
      match found.faults with
      | fault :: _ => .error (.fault fault.ruleId fault.message)
      | [] => .ok (marked, found)

/-- Compares where an id is reported, in order, with where it is expected. -/
def compare (id : String) (expected : List Extent) (found : Findings) : Except FixtureError Unit :=
  let actual := ((found.withId id).map (·.span.extent)).mergeSort Fixture.extentLe
  if actual = expected then .ok () else .error (.positions id expected actual)

/-- Checks that an id is reported at every mark and nowhere else. -/
def hasDiagnostic (f : RuleFixture) (code id : String) : Except FixtureError Unit :=
  match f.run code with
  | .error e => .error e
  | .ok (marked, found) =>
    if marked.markers.isEmpty then .error .noMarkers else compare id marked.markers found

/-- Checks that an id is reported nowhere in a text without marks. -/
def noDiagnostic (f : RuleFixture) (code id : String) : Except FixtureError Unit :=
  match f.run code with
  | .error e => .error e
  | .ok (marked, found) =>
    if marked.markers.isEmpty then compare id [] found else .error .unexpectedMarkers

end RuleFixture
end TreeLint
