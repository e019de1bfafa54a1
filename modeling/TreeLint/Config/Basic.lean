/-
# Configuration

A configuration says for each id whether its diagnostics are reported and how
serious they are, and which documents are left out. An id without a setting
keeps what the catalog says.

Key definitions: `RuleAction`, `Config`, `Config.effectiveSeverity?`,
`Config.enabling`, `Config.exclusions`, `Config.validate`.
-/
import TreeLint.Catalog.Basic
import TreeLint.Glob.Parser

namespace TreeLint

/-- What is done with the diagnostics of an id: what the catalog says, nothing, or a report at a
severity. -/
inductive RuleAction where
  | default
  | silence
  | report (severity : Severity)
deriving DecidableEq, Repr

namespace RuleAction

/-- Every action. -/
def all : List RuleAction := [.default, .silence] ++ Severity.all.map .report

/-- The name of an action. -/
def name : RuleAction → String
  | .default => "default"
  | .silence => "none"
  | .report s => s.name

/-- The action of exactly that name. -/
def ofName? (s : String) : Option RuleAction := all.find? (·.name == s)

end RuleAction

/-- Settings by id, in the order of the ids, and the patterns of the documents left out. -/
structure Config where
  rules : List (String × RuleAction) := []
  excludedPaths : List String := []
deriving DecidableEq, Repr

/-- Why a configuration is refused. -/
inductive ConfigError where
  | invalidId (id : String)
  | invalidPattern (pattern : String) (e : Glob.PatternError)
  | tooDeep (e : Glob.DepthError)
deriving DecidableEq, Repr

/-- The text of an error. -/
def ConfigError.message : ConfigError → String
  | .invalidId id =>
    "invalid rule id " ++ Quoted.quote id ++ " in rules, expected LC followed by four digits"
  | .invalidPattern p e =>
    "invalid excluded_paths pattern " ++ Quoted.quote p ++ ": error parsing glob '" ++ p ++ "': " ++
      e.message
  | .tooDeep e => e.message

namespace Config

/-- Puts a setting in its place among settings in order; a later setting of an id replaces an
earlier one. -/
def insertSetting (id : String) (action : RuleAction) :
    List (String × RuleAction) → List (String × RuleAction)
  | [] => [(id, action)]
  | (k, a) :: rest =>
    if id = k then (id, action) :: rest
    else if id < k then (id, action) :: (k, a) :: rest
    else (k, a) :: insertSetting id action rest

/-- The settings of a list, in the order of the ids. -/
def settings (pairs : List (String × RuleAction)) : List (String × RuleAction) :=
  pairs.foldl (fun rules (id, action) => insertSetting id action rules) []

/-- The configuration that reports the given ids at the severity of the catalog, whether they are
on by default or not. -/
def enabling (catalog : Catalog) (ids : List String) : Config where
  rules := settings ((ids.filterMap catalog.get?).map fun d => (d.id, .report d.severity))

/-- The severity at which diagnostics of a descriptor are reported, if they are. -/
def effectiveSeverity? (c : Config) (d : Descriptor) : Option Severity :=
  match c.rules.lookup d.id with
  | some (.report s) => some s
  | some .silence => none
  | _ => if d.enabledByDefault then some d.severity else none

/-- Compiles patterns, up to the first that cannot be read. -/
def compile : List String → Except ConfigError (List Glob.Matcher)
  | [] => .ok []
  | p :: ps =>
    match Glob.Matcher.ofString p with
    | .error e => .error (.invalidPattern p e)
    | .ok m =>
      match compile ps with
      | .ok ms => .ok (m :: ms)
      | .error e => .error e

/-- The compiled patterns of the documents left out. -/
def exclusions (c : Config) : Except ConfigError (List Glob.Matcher) :=
  match compile c.excludedPaths with
  | .error e => .error e
  | .ok ms =>
    match Glob.depthError? ms with
    | some e => .error (.tooDeep e)
    | none => .ok ms

/-- Checks the ids, then whether the patterns can be read. -/
def validate (c : Config) : Except ConfigError Unit :=
  match c.rules.find? fun (id, _) => !Descriptor.isValidId id with
  | some (id, _) => .error (.invalidId id)
  | none =>
    match compile c.excludedPaths with
    | .ok _ => .ok ()
    | .error e => .error e

/-- The names under which a configuration is looked for, in order. -/
def fileNames : List String := ["alcop.yaml", ".alcop.yaml", "alcop.yml", ".alcop.yml"]

end Config
end TreeLint
