/-
# Quoted text in messages

A text that a message names is put in double quotes. Quotes and backslashes are
escaped, the common control characters have short escapes, and any other
character that does not print is given by its code point.

Key definitions: `Quoted.isUnprintable`, `Quoted.quote`.
-/
import TreeLint.Text.CharClass
import TreeLint.Text.UnprintableRanges

namespace TreeLint
namespace Quoted

/-- A character that is given by its code point. -/
def isUnprintable (c : Char) : Bool :=
  if c.toNat < 0x7F then c.toNat < 0x20
  else c.toNat == 0x7F || CharClass.inRanges CharClass.unprintableRanges c.toNat

/-- A character between the quotes. -/
def escape (c : Char) : List Char :=
  match c with
  | '"' => ['\\', '"']
  | '\\' => ['\\', '\\']
  | '\n' => ['\\', 'n']
  | '\t' => ['\\', 't']
  | '\r' => ['\\', 'r']
  | '\x00' => ['\\', '0']
  | c =>
    if isUnprintable c then
      ['\\', 'u', '\x7b'] ++ Nat.toDigits 16 c.toNat ++ ['\x7d']
    else [c]

/-- The text in quotes. -/
def quote (s : String) : String := String.ofList ('"' :: (s.toList.flatMap escape ++ ['"']))

end Quoted
end TreeLint
