/-
# What a log says can be read from its value

The readers here take a log from a JSON value: the entries from the driver of the
run's tool, and the results from the run. Most of the records on the way have one
field, so one reader (`Sarif.within?`) leads through all of them. What is written
of a log is read back, so the value says all that the log says, entry by entry
and result by result.

Numbers are read with any number of digits, since a log sets no bound to them.

Key definitions: `Sarif.Entry.ofJson?`, `Sarif.Result.ofJson?`, `Sarif.Log.ofJson?`.
Key theorems: `Sarif.Entry.ofJson?_toJson`, `Sarif.Result.ofJson?_toJson`,
`Sarif.Log.ofJson?_toJson`.
-/
import TreeLint.Proofs.Exchange
import TreeLint.Report.Sarif

namespace TreeLint
namespace Sarif

open Json

/-! ### Readers -/

/-- Reads a number of any size. -/
def number? : Reader Nat
  | .num s => Decimal.ofDigits? (Decimal.value s.toList + 1) s.toList
  | _ => none

/-- Reads what the only field of a record holds. -/
def within? {α : Type} (name : String) (r : Reader α) : Reader α := fun v => do
  let fs ← fields? [name] v
  field? fs name r

/-- Reads the only item of a list. -/
def only? {α : Type} (r : Reader α) : Reader α
  | .arr [v] => r v
  | _ => none

/-- Reads the level of an entry and whether it is on. -/
def configuration? (v : Json) : Option (String × Bool) := do
  let fs ← fields? ["level", "enabled"] v
  let level ← field? fs "level" text?
  let enabled ← field? fs "enabled" flag?
  return (level, enabled)

/-- Reads an entry. -/
def Entry.ofJson? (v : Json) : Option Entry := do
  let fs ← fields? ["id", "name", "shortDescription", "fullDescription", "helpUri",
    "defaultConfiguration"] v
  let id ← field? fs "id" text?
  let name ← field? fs "name" text?
  let shortDescription ← field? fs "shortDescription" (within? "text" text?)
  let fullDescription ← fieldOr fs "fullDescription" none (optional? (within? "text" text?))
  let helpUri ← field? fs "helpUri" text?
  let (level, enabled) ← field? fs "defaultConfiguration" configuration?
  return ⟨id, name, shortDescription, fullDescription, helpUri, level, enabled⟩

/-- Reads a region. -/
def Region.ofJson? (v : Json) : Option Region := do
  let fs ← fields? ["startLine", "startColumn", "endLine", "endColumn"] v
  let startLine ← field? fs "startLine" number?
  let startColumn ← field? fs "startColumn" number?
  let endLine ← field? fs "endLine" number?
  let endColumn ← field? fs "endColumn" number?
  return ⟨startLine, startColumn, endLine, endColumn⟩

/-- Reads the file and the region of a place. -/
def place? (v : Json) : Option (String × Region) := do
  let fs ← fields? ["artifactLocation", "region"] v
  let uri ← field? fs "artifactLocation" (within? "uri" text?)
  let region ← field? fs "region" Region.ofJson?
  return (uri, region)

/-- Reads a result. -/
def Result.ofJson? (v : Json) : Option Result := do
  let fs ← fields? ["ruleId", "level", "message", "locations"] v
  let ruleId ← field? fs "ruleId" text?
  let level ← field? fs "level" text?
  let message ← field? fs "message" (within? "text" text?)
  let (uri, region) ← field? fs "locations" (only? (within? "physicalLocation" place?))
  return ⟨ruleId, level, message, uri, region⟩

/-- Reads the entries of a driver. -/
def entries? (v : Json) : Option (List Entry) := do
  let fs ← fields? ["name", "version", "informationUri", "rules"] v
  field? fs "rules" (list? Entry.ofJson?)

/-- Reads the entries and the results of a run. -/
def run? (v : Json) : Option Log := do
  let fs ← fields? ["tool", "results"] v
  let rules ← field? fs "tool" (within? "driver" entries?)
  let results ← field? fs "results" (list? Result.ofJson?)
  return ⟨rules, results⟩

/-- Reads a log. -/
def Log.ofJson? (v : Json) : Option Log := do
  let fs ← fields? ["version", "$schema", "runs"] v
  field? fs "runs" (only? run?)

/-! ### Reading what was written -/

theorem number?_nat (n : Nat) : number? (nat n) = some n := by
  have hvalue : Decimal.value (toString n).toList = n := by simp [Decimal.value_toDigits]
  rw [nat, number?, hvalue]
  exact natBelow?_nat n.lt_succ_self

theorem within?_obj {α : Type} {r : Reader α} {a : α} {v : Json} (name : String)
    (h : r v = some a) : within? name r (.obj [(name, v)]) = some a := by
  have hfields := fields?_of_sublist [name] [(name, v)] (List.nodup_singleton name)
    (List.Sublist.refl _)
  simp [within?, hfields, field?, h]

theorem within?_text (s : String) : within? "text" text? (text s) = some s :=
  within?_obj "text" rfl

theorem configuration?_obj (level : String) (enabled : Bool) :
    configuration? (.obj [("level", .str level), ("enabled", .bool enabled)]) =
      some (level, enabled) := by
  have hfields := fields?_of_sublist ["level", "enabled"]
    [("level", .str level), ("enabled", .bool enabled)] (by decide) (List.Sublist.refl _)
  simp [configuration?, hfields, field?, List.lookup_cons, text?, flag?]

/-- **An entry is read back from its value.** -/
theorem Entry.ofJson?_toJson (e : Entry) : ofJson? e.toJson = some e := by
  obtain ⟨id, name, short, full, uri, level, enabled⟩ := e
  have hfields : fields? ["id", "name", "shortDescription", "fullDescription", "helpUri",
      "defaultConfiguration"] (toJson ⟨id, name, short, full, uri, level, enabled⟩) =
        some ([("id", .str id), ("name", .str name), ("shortDescription", text short)] ++
          optField "fullDescription" text full ++ [("helpUri", .str uri),
            ("defaultConfiguration", .obj [("level", .str level), ("enabled", .bool enabled)])]) := by
    apply fields?_of_sublist _ _ (by decide)
    simp only [List.map_append, List.map_cons, List.map_nil]
    exact ((List.Sublist.refl _).append (map_fst_optField _ _ _)).append (List.Sublist.refl _)
  generalize hfs : [("id", Json.str id), ("name", .str name), ("shortDescription", text short)] ++
    optField "fullDescription" text full ++ [("helpUri", .str uri),
      ("defaultConfiguration", .obj [("level", .str level), ("enabled", .bool enabled)])] = fs
    at hfields
  have hid : field? fs "id" text? = some id := by
    apply field?_of_lookup (v := .str id)
    · simp [← hfs]
    · rfl
  have hname : field? fs "name" text? = some name := by
    apply field?_of_lookup (v := .str name)
    · simp [← hfs, List.lookup_cons]
    · rfl
  have hshort : field? fs "shortDescription" (within? "text" text?) = some short := by
    apply field?_of_lookup (v := text short)
    · simp [← hfs, List.lookup_cons]
    · exact within?_text short
  have hfull : fieldOr fs "fullDescription" none (optional? (within? "text" text?)) = some full := by
    apply fieldOr_optional? (f := text) _ (by simp [text]) fun s _ => within?_text s
    simp [← hfs, List.lookup_append, List.lookup_cons, lookup_optField]
  have huri : field? fs "helpUri" text? = some uri := by
    apply field?_of_lookup (v := .str uri)
    · simp [← hfs, List.lookup_append, List.lookup_cons, lookup_optField]
    · rfl
  have hconfiguration : field? fs "defaultConfiguration" configuration? = some (level, enabled) := by
    apply field?_of_lookup (v := .obj [("level", .str level), ("enabled", .bool enabled)])
    · simp [← hfs, List.lookup_append, List.lookup_cons, lookup_optField]
    · exact configuration?_obj level enabled
  simp [ofJson?, hfields, hid, hname, hshort, hfull, huri, hconfiguration]

theorem Region.ofJson?_toJson (r : Region) : ofJson? r.toJson = some r := by
  have hfields := fields?_of_sublist ["startLine", "startColumn", "endLine", "endColumn"]
    [("startLine", nat r.startLine), ("startColumn", nat r.startColumn),
      ("endLine", nat r.endLine), ("endColumn", nat r.endColumn)] (by decide) (List.Sublist.refl _)
  simp [ofJson?, toJson, hfields, field?, List.lookup_cons, number?_nat]

theorem place?_obj (uri : String) (region : Region) :
    place? (.obj [("artifactLocation", .obj [("uri", .str uri)]), ("region", region.toJson)]) =
      some (uri, region) := by
  have hfields := fields?_of_sublist ["artifactLocation", "region"]
    [("artifactLocation", .obj [("uri", .str uri)]), ("region", region.toJson)] (by decide)
    (List.Sublist.refl _)
  have huri : within? "uri" text? (.obj [("uri", .str uri)]) = some uri := within?_obj "uri" rfl
  simp [place?, hfields, field?, List.lookup_cons, huri, Region.ofJson?_toJson]

/-- **A result is read back from its value.** -/
theorem Result.ofJson?_toJson (r : Result) : ofJson? r.toJson = some r := by
  have hfields := fields?_of_sublist ["ruleId", "level", "message", "locations"]
    [("ruleId", .str r.ruleId), ("level", .str r.level), ("message", text r.message),
      ("locations", .arr [.obj [("physicalLocation", .obj [
        ("artifactLocation", .obj [("uri", .str r.uri)]), ("region", r.region.toJson)])]])]
    (by decide) (List.Sublist.refl _)
  have hplace := within?_obj "physicalLocation" (place?_obj r.uri r.region)
  simp [ofJson?, toJson, hfields, field?, List.lookup_cons, text?, within?_text, only?, hplace]

theorem entries?_obj (name version uri : String) (rules : List Entry) :
    entries? (.obj [("name", .str name), ("version", .str version), ("informationUri", .str uri),
      ("rules", .arr (rules.map Entry.toJson))]) = some rules := by
  have hfields := fields?_of_sublist ["name", "version", "informationUri", "rules"]
    [("name", .str name), ("version", .str version), ("informationUri", .str uri),
      ("rules", .arr (rules.map Entry.toJson))] (by decide) (List.Sublist.refl _)
  have hrules : list? Entry.ofJson? (.arr (rules.map Entry.toJson)) = some rules :=
    list?_map fun e _ => e.ofJson?_toJson
  simp [entries?, hfields, field?, List.lookup_cons, hrules]

theorem run?_obj {tool : Json} {l : Log} (h : within? "driver" entries? tool = some l.rules) :
    run? (.obj [("tool", tool), ("results", .arr (l.results.map Result.toJson))]) = some l := by
  have hfields := fields?_of_sublist ["tool", "results"]
    [("tool", tool), ("results", .arr (l.results.map Result.toJson))] (by decide)
    (List.Sublist.refl _)
  have hresults : list? Result.ofJson? (.arr (l.results.map Result.toJson)) = some l.results :=
    list?_map fun r _ => r.ofJson?_toJson
  simp [run?, hfields, field?, List.lookup_cons, h, hresults]

/-- **A log is read back from its value**, with all its entries and results in order. -/
theorem Log.ofJson?_toJson (l : Log) : ofJson? l.toJson = some l := by
  have hrun := run?_obj (within?_obj "driver"
    (entries?_obj Report.toolName Report.version informationUri l.rules))
  have hfields : ∀ v s runs, fields? ["version", "$schema", "runs"]
      (.obj [("version", v), ("$schema", s), ("runs", runs)]) =
        some [("version", v), ("$schema", s), ("runs", runs)] := fun v s runs =>
    fields?_of_sublist _ _ (by decide) (List.Sublist.refl _)
  simp [ofJson?, toJson, hfields, field?, List.lookup_cons, only?, hrun]

end Sarif
end TreeLint
