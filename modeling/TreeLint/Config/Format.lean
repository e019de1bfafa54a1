/-
# Configurations as YAML

A configuration is a mapping with the fields `rules` and `excluded_paths`; a
rule is a mapping with the field `action`. Fields of other names are skipped, a
field may not be repeated, and a value that is left out stands for an empty
mapping or sequence. Any scalar is a text. Aliases may be followed, but not much
more often than the text is long.

Key definitions: `Config.Reading`, `Config.reading`, `Config.ofYaml?`,
`Config.parse?`.
-/
import TreeLint.Config.Basic
import TreeLint.Yaml.Node

namespace TreeLint
namespace Config

/-- Reads from a document, counting the aliases that are followed. -/
abbrev Reading := ReaderT Yaml.Document (StateT Nat Option)

/-- How often aliases may be followed for each place of a document. -/
def aliasesPerPlace : Nat := 100

/-- A node, or what it is an alias of. -/
def resolve (n : Yaml.Node) : Reading Yaml.Node :=
  match n with
  | .alias anchor => do
    let d ← read
    let followed := (← get) + 1
    set followed
    if followed > aliasesPerPlace * d.size then failure else (d.target? anchor).getDM failure
  | n => return n

/-- The text of a scalar. -/
def text (n : Yaml.Node) : Reading String := do
  match ← resolve n with
  | .scalar s _ _ _ => return s
  | _ => failure

/-- The entries of a mapping. -/
def entries (n : Yaml.Node) : Reading (List (Yaml.Node × Yaml.Node)) := do
  match ← resolve n with
  | .mapping es _ => return es
  | .scalar "" true _ _ => return []
  | _ => failure

/-- The items of a sequence. -/
def items (n : Yaml.Node) : Reading (List Yaml.Node) := do
  match ← resolve n with
  | .sequence xs _ => return xs
  | .scalar "" true _ _ => return []
  | _ => failure

/-- The fields of a record with the given field names, each at most once. -/
def record (names : List String) (n : Yaml.Node) : Reading (List (String × Yaml.Node)) := do
  let fields ← (← entries n).mapM fun (k, v) => return (← text k, v)
  if names.all fun name => (fields.filter (·.1 == name)).length ≤ 1 then return fields else failure

/-- The scalars that stand for nothing. -/
def nothings : List String := ["", "~", "null", "Null", "NULL"]

/-- What stands after the exclamation mark of a tag that starts with one. -/
def localTag? : Yaml.Octets → Option String
  | 0x21 :: name => String.fromUTF8? ⟨name.toArray⟩
  | _ => none

/-- An action: its name as a scalar, or as the tag of a scalar that stands for nothing. -/
def action (n : Yaml.Node) : Reading RuleAction := do
  match ← resolve n with
  | .scalar s plain tag _ =>
    match tag.bind localTag? with
    | some name =>
      if plain && nothings.contains s then (RuleAction.ofName? name).getDM failure else failure
    | none => (RuleAction.ofName? s).getDM failure
  | _ => failure

/-- The action of a rule. -/
def rule (n : Yaml.Node) : Reading RuleAction := do
  match (← record ["action"] n).lookup "action" with
  | some v => action v
  | none => failure

/-- The settings of a mapping from ids to rules. -/
def rulesOf (n : Yaml.Node) : Reading (List (String × RuleAction)) := do
  return settings (← (← entries n).mapM fun (k, v) => return (← text k, ← rule v))

/-- The patterns of a sequence. -/
def patterns (n : Yaml.Node) : Reading (List String) := do (← items n).mapM text

/-- A field that has a default when it is missing. -/
def fieldOr (fields : List (String × Yaml.Node)) (name : String) (default : α)
    (f : Yaml.Node → Reading α) : Reading α :=
  match fields.lookup name with
  | some v => f v
  | none => return default

/-- A configuration. -/
def reading (n : Yaml.Node) : Reading Config := do
  let fields ← record ["rules", "excluded_paths"] n
  let rules ← fieldOr fields "rules" [] rulesOf
  let excludedPaths ← fieldOr fields "excluded_paths" [] patterns
  return { rules, excludedPaths }

/-- Reads a configuration from a YAML value. -/
def ofYaml? (d : Yaml.Document) : Option Config := ((reading d.root).run d).run' 0

/-- Reads a configuration from a YAML text. -/
def parse? (s : String) : Option Config := (Yaml.parse? s).bind ofYaml?

end Config
end TreeLint
