/-
# JSON values and tokens

A JSON text is read in two steps, into tokens and then into a value. Objects
keep their fields in order, repeated ones included, and a number keeps its
spelling, so that a reader of typed data can tell `1` from `1.0` and a missing
field from a repeated one. A string with an unpaired surrogate is well-formed as
JSON but spells no text; it, or an object with such a key, may stand where its
value does not matter.

Key definitions: `Json`, `Json.Token`.
-/

namespace TreeLint

/-- A JSON value. -/
inductive Json where
  | null
  | bool (b : Bool)
  | num (literal : String)
  | str (s : String)
  | unpaired
  | arr (items : List Json)
  | obj (fields : List (String × Json))
deriving Repr

namespace Json

instance : Inhabited Json := ⟨.null⟩

/-- The smallest parts of a JSON text; a string that spells no text has no value. -/
inductive Token where
  | openBrace
  | closeBrace
  | openBracket
  | closeBracket
  | colon
  | comma
  | null
  | bool (b : Bool)
  | num (literal : String)
  | str (s : Option String)
deriving DecidableEq, Repr

/-- A natural number as a JSON value. -/
def nat (n : Nat) : Json := .num (toString n)

/-- An optional value, `null` when there is none. -/
def orNull (f : α → Json) : Option α → Json
  | some a => f a
  | none => .null

/-- A field that is present only when it has a value. -/
def optField (name : String) (f : α → Json) : Option α → List (String × Json)
  | some a => [(name, f a)]
  | none => []

end Json
end TreeLint
