/-
# The value of a list of JSON tokens

The tokens are read from left to right. Arrays and objects that are still open
wait on a stack with the items read so far, so nesting of any depth is read and
the recursion is on the list of tokens alone. An object with a key that spells
no text spells nothing itself.

Key definitions: `Json.Frame`, `Json.Expect`, `Json.deliver`, `Json.assemble`,
`Json.readFront?`, `Json.parse?`.
-/
import TreeLint.Json.Lexer

namespace TreeLint
namespace Json

/-- The fields of an object; a key that spells no text has no value. -/
abbrev RawFields := List (Option String × Json)

/-- An array or object that is still open; items are in reverse. -/
inductive Frame where
  | arr (items : List Json)
  | obj (fields : RawFields) (key : Option String)
deriving Repr

/-- What may come next: a value; a value or the end of the array just opened; a key, or also the
end of the object just opened; the colon after a key; a comma or the end of what is open. -/
inductive Expect where
  | value
  | firstItem
  | key (fields : RawFields)
  | firstKey
  | colon (fields : RawFields) (key : Option String)
  | more
deriving Repr

/-- The object with the given fields. -/
def ofFields (fields : RawFields) : Json :=
  match fields.mapM fun (k, v) => k.map fun k => (k, v) with
  | some fs => .obj fs
  | none => .unpaired

/-- A finished value goes to the innermost open array or object; with none open it is the value
of the text. -/
def deliver (v : Json) : List Frame → Json ⊕ List Frame
  | [] => .inl v
  | .arr items :: stack => .inr (.arr (v :: items) :: stack)
  | .obj fields key :: stack => .inr (.obj ((key, v) :: fields) key :: stack)

/-- A token that is a value by itself. -/
def Token.scalar? : Token → Option Json
  | .null => some .null
  | .bool b => some (.bool b)
  | .num n => some (.num n)
  | .str (some s) => some (.str s)
  | .str none => some .unpaired
  | _ => none

/-- Reads the rest of the tokens, given the open arrays and objects and what may come next, until
the value of the text is there; what is left are the tokens after it. -/
def assemble : List Token → List Frame → Expect → Option (Json × List Token)
  | [], _, _ => none
  | t :: ts, stack, expect =>
    let finish (v : Json) (stack : List Frame) : Option (Json × List Token) :=
      match deliver v stack with
      | .inl v => some (v, ts)
      | .inr stack => assemble ts stack .more
    let start : Option (Json × List Token) :=
      match t with
      | .openBracket => assemble ts (.arr [] :: stack) .firstItem
      | .openBrace => assemble ts stack .firstKey
      | t => match t.scalar? with
        | some v => finish v stack
        | none => none
    match expect with
    | .value => start
    | .firstItem =>
      match t, stack with
      | .closeBracket, .arr _ :: stack => finish (.arr []) stack
      | _, _ => start
    | .firstKey =>
      match t with
      | .closeBrace => finish (.obj []) stack
      | .str k => assemble ts stack (.colon [] k)
      | _ => none
    | .key fields =>
      match t with
      | .str k => assemble ts stack (.colon fields k)
      | _ => none
    | .colon fields k =>
      match t with
      | .colon => assemble ts (.obj fields k :: stack) .value
      | _ => none
    | .more =>
      match t, stack with
      | .comma, .arr items :: stack => assemble ts (.arr items :: stack) .value
      | .comma, .obj fields _ :: stack => assemble ts stack (.key fields)
      | .closeBracket, .arr items :: stack => finish (.arr items.reverse) stack
      | .closeBrace, .obj fields _ :: stack => finish (ofFields fields.reverse) stack
      | _, _ => none

/-- The value at the front of a text, and whether only white space follows it. -/
def readFront? (s : String) : Option (Json × Bool) :=
  let (ts, whole) := tokens s.toList
  (assemble ts [] .value).map fun (v, left) => (v, whole && left.isEmpty)

/-- The value of a JSON text, if it is one. -/
def parse? (s : String) : Option Json :=
  match readFront? s with
  | some (v, true) => some v
  | _ => none

end Json
end TreeLint
