/-
# Running a command

A command reads a store of files and gives an exit code and what it writes. Zero
means that no error was reported, one that there was one, and two that the
command could not do its work.

Key definitions: `Run`, `CheckOptions.run`, `RulesOptions.run`, `Command.run`.
-/
import TreeLint.Command.Arguments
import TreeLint.Command.Inputs
import TreeLint.Config.Load
import TreeLint.Json.Printer
import TreeLint.Report.Pretty
import TreeLint.Report.Sarif
import TreeLint.Analysis

namespace TreeLint

/-- What a command gives: its exit code, what it writes, and the error with which it broke off,
if it did. -/
structure Run where
  exitCode : Nat
  stdout : String := ""
  stderr : List String := []
  failure : Option String := none
deriving DecidableEq, Repr

namespace Run

/-- A command that could not do its work and says why. -/
def refused (message : String) : Run := { exitCode := 2, stderr := ["Error: " ++ message] }

/-- A command that broke off. -/
def broken (e : EngineError) : Run := { exitCode := 2, failure := some e.message }

end Run

namespace CheckOptions

/-- The formats of a report. -/
def formats : List String := ["pretty", "json", "sarif"]

/-- The directory in which the configuration of a checked path is looked for. -/
def configDirectory : Location × FileEntry → String
  | (l, .directory) => l.path
  | (l, .file _) => Location.path l.dropLast

/-- The inputs of a checked path. -/
def inputs (s : FileStore) : Location × FileEntry → List String
  | (l, .directory) => Inputs.collect s l
  | (l, .file _) => [l.path]

/-- The dispatcher of the linter under a configuration. -/
def dispatcher (config : Config) : Except EngineError Dispatcher :=
  match Dispatcher.builtin with
  | .error e => .error e
  | .ok d => d.withConfig config

/-- The report in the format that was asked for. -/
def report (o : CheckOptions) (color : Bool) (base : String) (catalog : Catalog) (f : Findings) :
    String :=
  match o.format with
  | "json" => (f.report o.path).pretty ++ "\n"
  | "sarif" => (Sarif.Log.of base catalog f).toJson.pretty ++ "\n"
  | _ => f.pretty o.path o.showSuppressed color

/-- Analyzes the inputs that can be loaded and reports; an input that cannot be loaded outweighs
the verdict. -/
def analyze (o : CheckOptions) (s : FileStore) (color : Bool) (base : String) (d : Dispatcher)
    (files : List String) : Run :=
  let trees := files.filterMap (Inputs.load? s)
  let found := d.analyzeAll trees
  let failures := files.length - trees.length
  { exitCode := if failures > 0 then 2 else if found.hasErrors then 1 else 0
    stdout := o.report color base d.catalog found
    stderr := if failures > 0 then
        [s!"Error: {failures} of {files.length} inputs could not be loaded"]
      else [] }

/-- Checks what a path leads to. -/
def checkAt (o : CheckOptions) (s : FileStore) (color : Bool) (place : Location × FileEntry) : Run :=
  match Config.load s o.config (configDirectory place) with
  | .error e => Run.refused e.message
  | .ok config =>
    match dispatcher config with
    | .error e => Run.broken e
    | .ok d =>
      let files := inputs s place
      if files.isEmpty then { exitCode := 0, stderr := ["Warning: no tree exports to check"] }
      else o.analyze s color (Location.path place.1) d files

/-- Checks a path. -/
def run (o : CheckOptions) (s : FileStore) (color : Bool) : Run :=
  if !formats.contains o.format then
    Run.refused ("invalid format " ++ Quoted.quote o.format ++
      ", must be 'pretty', 'json', or 'sarif'")
  else match s.resolve o.path with
    | .error e => Run.refused ("cannot access path " ++ Quoted.quote o.path ++ ": " ++ e.message)
    | .ok place => o.checkAt s color place

end CheckOptions

/-- Lists the catalog. -/
def RulesOptions.run (o : RulesOptions) (color : Bool) : Run :=
  match o.format with
  | "json" => { exitCode := 0, stdout := Catalog.builtin.listing.pretty ++ "\n" }
  | "pretty" => { exitCode := 0, stdout := Catalog.builtin.table color }
  | other =>
    Run.refused ("invalid format " ++ Quoted.quote other ++ ", must be 'pretty' or 'json'")

/-- Runs a command over the files it can see. -/
def Command.run (c : Command) (s : FileStore) (color : Bool) : Run :=
  match c with
  | .check o => o.run s color
  | .rules o => o.run color

end TreeLint
