/-
# Character classes of the scanned language

Names and blanks are Unicode-aware: a name may go on with any word character,
and blanks are the characters of the property `White_Space`. Keywords are
compared by simple case folding, under which two characters outside ASCII fold
to ASCII letters: the long s to `s` and the Kelvin sign to `k`. Identifiers are
compared by ASCII case only.

Key definitions: `CharClass.isBlank`, `CharClass.isWord`, `CharClass.isDigit`,
`CharClass.folds`.
-/
import TreeLint.Text.WordRanges

namespace TreeLint
namespace CharClass

/-- What is asked of each character of a text is decided along the text, and not by going
through all characters there are. -/
instance (priority := 1100) decidableForallMem (text : List Char) (p : Char → Prop)
    [DecidablePred p] : Decidable (∀ c ∈ text, p c) :=
  List.decidableBAll p text

/-- Whether a code point lies in one of the ranges. -/
def inRanges (ranges : List (Nat × Nat)) (n : Nat) : Bool :=
  ranges.any fun r => r.1 ≤ n && n ≤ r.2

/-- White space: the characters of the property `White_Space`. -/
def isBlank (c : Char) : Bool :=
  let n := c.toNat
  n == 0x20 || (0x9 ≤ n && n ≤ 0xD) || n == 0x85 || n == 0xA0 || n == 0x1680 ||
    (0x2000 ≤ n && n ≤ 0x200A) || n == 0x2028 || n == 0x2029 || n == 0x202F ||
    n == 0x205F || n == 0x3000

/-- An ASCII letter. -/
def isAsciiLetter (c : Char) : Bool :=
  ('a' ≤ c && c ≤ 'z') || ('A' ≤ c && c ≤ 'Z')

/-- An ASCII digit. -/
def isAsciiDigit (c : Char) : Bool :=
  '0' ≤ c && c ≤ '9'

/-- A decimal digit of any script. -/
def isDigit (c : Char) : Bool :=
  if c.toNat < 0x80 then isAsciiDigit c else inRanges digitRanges c.toNat

/-- A character that may go on a name: letters, marks, digits, connectors. -/
def isWord (c : Char) : Bool :=
  if c.toNat < 0x80 then isAsciiLetter c || isAsciiDigit c || c == '_'
  else inRanges wordRanges c.toNat

/-- The lower-case form of an ASCII letter; any other character is unchanged. -/
def lower (c : Char) : Char :=
  if 'A' ≤ c ∧ c ≤ 'Z' then Char.ofNat (c.toNat + 32) else c

/-- The long s, which folds to `s`. -/
def longS : Char := '\u017f'

/-- The Kelvin sign, which folds to `k`. -/
def kelvin : Char := '\u212a'

/-- Whether `c` folds to the lower-case ASCII letter `k`: it is that letter in either case,
the long s for `s`, or the Kelvin sign for `k`. -/
def folds (k c : Char) : Bool :=
  lower c == k || (k == 's' && c == longS) || (k == 'k' && c == kelvin)

/-- A character that folds to some ASCII letter. -/
def isFoldedLetter (c : Char) : Bool :=
  isAsciiLetter c || c == longS || c == kelvin

/-- A hexadecimal digit's value. -/
def hexValue? (c : Char) : Option Nat :=
  if '0' ≤ c ∧ c ≤ '9' then some (c.toNat - '0'.toNat)
  else if 'a' ≤ c ∧ c ≤ 'f' then some (c.toNat - 'a'.toNat + 10)
  else if 'A' ≤ c ∧ c ≤ 'F' then some (c.toNat - 'A'.toNat + 10)
  else none

end CharClass
end TreeLint
