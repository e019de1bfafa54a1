/-
# Reading typed data from JSON values

A record is written as an object, or as an array of its fields in order. In an
object, fields the record does not have are skipped and a field it has may occur
once; in an array, fields may be missing at the end and none may be added. A tag
is written as its name, or as an object with that name alone and the value
`null`. Numbers are unsigned integers of a fixed width, so only a plain sequence
of digits within the width is one.

Key definitions: `Json.Reader`, `Json.fields?`, `Json.field?`, `Json.fieldOr`,
`Json.optional?`, `Json.natBelow?`, `Json.tag?`.
-/
import TreeLint.Json.Basic
import TreeLint.Text.Decimal

namespace TreeLint
namespace Json

/-- A reader of one kind of data. -/
abbrev Reader (α : Type) := Json → Option α

/-- An unsigned integer below a limit. -/
def natBelow? (limit : Nat) : Reader Nat
  | .num s => Decimal.ofDigits? limit s.toList
  | _ => none

/-- A position: an unsigned integer of 32 bits. -/
def id? : Reader Nat := natBelow? Decimal.limit32

/-- An offset or a count: an unsigned integer of 64 bits. -/
def count? : Reader Nat := natBelow? Decimal.limit64

/-- A text. -/
def text? : Reader String
  | .str s => some s
  | _ => none

/-- A truth value. -/
def flag? : Reader Bool
  | .bool b => some b
  | _ => none

/-- A value that may be `null`. -/
def optional? (r : Reader α) : Reader (Option α)
  | .null => some none
  | v => (r v).map some

/-- A list of values. -/
def list? (r : Reader α) : Reader (List α)
  | .arr items => items.mapM r
  | _ => none

/-- A tag, read from its name. -/
def tag? (ofName? : String → Option α) : Reader α
  | .str s => ofName? s
  | .obj [(s, .null)] => ofName? s
  | _ => none

/-- The values of an object's fields with that name. -/
def valuesOf (name : String) (fields : List (String × Json)) : List Json :=
  (fields.filter (·.1 == name)).map (·.2)

/-- The fields of a record with the given field names, each at most once. -/
def fields? (names : List String) : Reader (List (String × Json))
  | .obj fields =>
    if names.all fun n => (valuesOf n fields).length ≤ 1 then some fields else none
  | .arr items => if items.length ≤ names.length then some (names.zip items) else none
  | _ => none

/-- A field that must be there. -/
def field? (fields : List (String × Json)) (name : String) (r : Reader α) : Option α :=
  (fields.lookup name).bind r

/-- A field that has a default when it is missing. -/
def fieldOr (fields : List (String × Json)) (name : String) (default : α) (r : Reader α) :
    Option α :=
  match fields.lookup name with
  | some v => r v
  | none => some default

end Json
end TreeLint
