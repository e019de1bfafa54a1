/-
# Names and how they are compared

A name may be written with double quotes around it and with white space around
those. Two names are the same when they agree up to that writing and up to the
case of ASCII letters.

Key definitions: `Name.unquote`, `Name.same`.
-/
import TreeLint.Text.CharClass

namespace TreeLint
namespace Name

/-- Characters without leading white space. -/
def trimStart (cs : List Char) : List Char := cs.dropWhile CharClass.isBlank

/-- Characters without leading and trailing white space. -/
def trim (cs : List Char) : List Char := (trimStart (trimStart cs).reverse).reverse

/-- The text between an opening and a closing quote, if both are there. -/
def between? (cs : List Char) : Option (List Char) :=
  match cs with
  | '"' :: rest =>
    match rest.reverse with
    | '"' :: inner => some inner.reverse
    | _ => none
  | _ => none

/-- Characters of a name without surrounding white space and without one pair of quotes. -/
def unquoteChars (cs : List Char) : List Char :=
  (between? (trim cs)).getD (trim cs)

/-- A name without surrounding white space and without one pair of quotes. -/
def unquote (s : String) : String := String.ofList (unquoteChars s.toList)

/-- A string with its ASCII letters in lower case. -/
def lower (s : String) : String := String.ofList (s.toList.map CharClass.lower)

/-- Equality up to the case of ASCII letters. -/
def eqIgnoreCase (a b : String) : Bool :=
  a.toList.map CharClass.lower == b.toList.map CharClass.lower

/-- Whether two names are the same in the language: quotes, surrounding white space and ASCII
case do not count. -/
def same (a b : String) : Bool := eqIgnoreCase (unquote a) (unquote b)

end Name
end TreeLint
