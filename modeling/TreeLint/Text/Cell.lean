/-
# Text as labelled bytes

Every position the program reports is a UTF-8 byte offset. A text is therefore
held as a list with one entry per byte, each labelled with the character it
encodes: a byte offset is an index into the list, a range of bytes is a `drop`
and a `take`, and a character class is a predicate on one entry. The first byte
of a character is its lead; an offset is a character boundary when a lead, or
the end of the text, stands there.

Key definitions: `Cell`, `Cells.ofString`, `Cells.text`, `Extent`, `Cells.slice`,
`Cells.isBoundary`.
-/
import TreeLint.Text.CharClass

namespace TreeLint

/-- One byte of a text: the character it belongs to, and whether it is that character's first
byte. -/
structure Cell where
  char : Char
  lead : Bool
deriving DecidableEq, Repr

/-- A text, byte by byte. -/
abbrev Cells := List Cell

/-- A half-open interval of byte offsets. -/
structure Extent where
  start : Nat
  stop : Nat
deriving DecidableEq, Repr

namespace Extent

/-- Whether an offset lies in the interval. -/
def has (r : Extent) (i : Nat) : Bool :=
  r.start ≤ i && i < r.stop

end Extent

namespace Cell

/-- The bytes of one character. -/
def ofChar (c : Char) : Cells :=
  ⟨c, true⟩ :: List.replicate (c.utf8Size - 1) ⟨c, false⟩

/-- A blank byte. -/
def space : Cell := ⟨' ', true⟩

/-- Whether the byte belongs to a white-space character. -/
def isBlank (c : Cell) : Bool := CharClass.isBlank c.char

/-- Whether the byte belongs to a word character. -/
def isWord (c : Cell) : Bool := CharClass.isWord c.char

end Cell

namespace Cells

/-- The bytes of a list of characters. -/
def ofChars (cs : List Char) : Cells := cs.flatMap Cell.ofChar

/-- The bytes of a string. -/
def ofString (s : String) : Cells := ofChars s.toList

/-- The characters whose first byte is in the text. -/
def chars (cs : Cells) : List Char := (cs.filter (·.lead)).map (·.char)

/-- The string that the bytes spell. -/
def text (cs : Cells) : String := String.ofList cs.chars

/-- The bytes of an interval. -/
def slice (cs : Cells) (r : Extent) : Cells := (cs.drop r.start).take (r.stop - r.start)

/-- Whether a character starts at the offset, or the text ends there. -/
def isBoundary (cs : Cells) (i : Nat) : Bool :=
  match cs[i]? with
  | some c => c.lead
  | none => i == cs.length

/-- The string between two offsets, when they are in order, in range and on character
boundaries. -/
def slice? (cs : Cells) (r : Extent) : Option String :=
  if r.start ≤ r.stop ∧ cs.isBoundary r.start ∧ cs.isBoundary r.stop then
    some (cs.slice r).text
  else none

/-- How many blank bytes the text starts with. -/
def leadingBlanks (cs : Cells) : Nat := (cs.takeWhile Cell.isBlank).length

/-- How many blank bytes the text ends with. -/
def trailingBlanks (cs : Cells) : Nat := leadingBlanks cs.reverse

/-- The text without its leading white space. -/
def trimStart (cs : Cells) : Cells := cs.dropWhile Cell.isBlank

/-- The text without its leading and trailing white space. -/
def trim (cs : Cells) : Cells := (cs.trimStart.reverse.dropWhile Cell.isBlank).reverse

/-- Whether the text is white space only. -/
def isBlank (cs : Cells) : Bool := cs.all Cell.isBlank

/-- The offset of the first byte of a character, counted from `i`. -/
def findChar? (c : Char) (i : Nat) : Cells → Option Nat
  | [] => none
  | x :: xs => if x.char = c then some i else findChar? c (i + 1) xs

/-- The pieces of a text between the occurrences of a separator. -/
def splitOn (sep : Char) : Cells → List Cells
  | [] => [[]]
  | x :: xs =>
    if x.char = sep then [] :: splitOn sep xs
    else match splitOn sep xs with
      | [] => [[x]]
      | piece :: pieces => (x :: piece) :: pieces

/-- The lines of the rest of a text, each with its offset; `line` holds the start of the current
line in reverse. -/
def linesFrom (start pos : Nat) (line : Cells) : Cells → List (Nat × Cells)
  | [] => [(start, line.reverse)]
  | x :: xs =>
    if x.char = '\n' then (start, line.reverse) :: linesFrom (pos + 1) (pos + 1) [] xs
    else linesFrom start (pos + 1) (x :: line) xs

/-- The lines of a text whose first byte has the given offset, each with its own offset and
without its line feed. -/
def lines (cs : Cells) (start : Nat) : List (Nat × Cells) := linesFrom start start [] cs

/-- A text has as many bytes as the UTF-8 form of its characters. -/
theorem length_ofChar (c : Char) : (Cell.ofChar c).length = c.utf8Size := by
  have := c.utf8Size_pos
  simp [Cell.ofChar]
  omega

theorem chars_append (a b : Cells) : chars (a ++ b) = chars a ++ chars b := by
  simp [chars]

theorem chars_ofChar (c : Char) : chars (Cell.ofChar c) = [c] := by
  simp [chars, Cell.ofChar]

/-- The bytes of a list of characters spell those characters. -/
theorem chars_ofChars : ∀ cs : List Char, chars (ofChars cs) = cs
  | [] => rfl
  | c :: cs => by
    have ih := chars_ofChars cs
    simp only [ofChars, List.flatMap_cons] at ih ⊢
    rw [chars_append, chars_ofChar, ih]
    rfl

/-- The bytes of a string spell that string. -/
theorem text_ofString (s : String) : (ofString s).text = s := by
  simp [text, ofString, chars_ofChars]

end Cells
end TreeLint
