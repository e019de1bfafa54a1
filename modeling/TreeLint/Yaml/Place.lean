/-
# Places in a YAML text

The text is read from left to right. A place is what is left of it, with the
line and column there and the bytes before it on its line. Lines end at a line
feed or at a line or paragraph separator; the other ways to end a line are read
as line feeds before.

Key definitions: `Yaml.Mark`, `Yaml.Place`, `Yaml.isBreak`, `Yaml.atGap`,
`Yaml.atDocumentMarker`, `Yaml.normalizeBreaks`, `Yaml.isAllowed`.
-/

namespace TreeLint
namespace Yaml

/-- A blank within a line. -/
def isBlank (c : Char) : Bool := c == ' ' || c == '\t'

/-- A character that ends a line. -/
def isBreak (c : Char) : Bool := c == '\n' || c == '\u2028' || c == '\u2029'

/-- A position: line and column from zero, and the number of bytes before it on its line. -/
structure Mark where
  line : Nat := 0
  col : Nat := 0
  byte : Nat := 0
deriving DecidableEq, Repr

/-- The position after a character. -/
def Mark.after (m : Mark) (c : Char) : Mark :=
  if isBreak c then ⟨m.line + 1, 0, 0⟩ else ⟨m.line, m.col + 1, m.byte + c.utf8Size⟩

/-- A position in a text and what is left of the text there. -/
structure Place where
  mark : Mark
  rest : List Char
deriving Repr

namespace Place

/-- The place after the characters at the front that satisfy a condition. -/
def skipWhileFrom (p : Char → Bool) : Mark → List Char → Place
  | m, [] => ⟨m, []⟩
  | m, c :: cs => if p c then skipWhileFrom p (m.after c) cs else ⟨m, c :: cs⟩

/-- The place after the characters at the front that satisfy a condition. -/
def skipWhile (p : Char → Bool) (x : Place) : Place := skipWhileFrom p x.mark x.rest

/-- The place a number of characters on. -/
def skip : Nat → Place → Place
  | 0, x => x
  | _, ⟨m, []⟩ => ⟨m, []⟩
  | n + 1, ⟨m, c :: cs⟩ => skip n ⟨m.after c, cs⟩

/-- The place at which the given rest of the text is left. -/
def skipTo (x : Place) (rest : List Char) : Place := x.skip (x.rest.length - rest.length)

end Place

/-- Whether a blank, a line break or the end of the text comes next. -/
def atGap : List Char → Bool
  | [] => true
  | c :: _ => isBlank c || isBreak c

/-- Whether a line break or the end of the text comes next. -/
def atLineEnd : List Char → Bool
  | [] => true
  | c :: _ => isBreak c

/-- Whether a document marker stands here: three dashes or dots, then a gap. -/
def atDocumentMarker : List Char → Bool
  | '-' :: '-' :: '-' :: rest => atGap rest
  | '.' :: '.' :: '.' :: rest => atGap rest
  | _ => false

/-- Skips the blanks and the comment at the end of a line and its line break; nothing else may
stand there. -/
def Place.endLine? (x : Place) : Option Place :=
  let x := x.skipWhile isBlank
  let x := if x.rest.head? == some '#' then x.skipWhile fun c => !isBreak c else x
  if atLineEnd x.rest then some (x.skip 1) else none

/-- A text with a line feed for every carriage return, for both together and for every next-line
character. -/
def normalizeBreaks : List Char → List Char
  | [] => []
  | c :: cs =>
    if c = '\r' then
      match cs with
      | '\n' :: cs => '\n' :: normalizeBreaks cs
      | cs => '\n' :: normalizeBreaks cs
    else if c = '\u0085' then '\n' :: normalizeBreaks cs
    else c :: normalizeBreaks cs

/-- Whether a character may stand in a YAML text. -/
def isAllowed (c : Char) : Bool :=
  let n := c.toNat
  n == 0x9 || n == 0xA || n == 0xD || (0x20 ≤ n && n ≤ 0x7E) || n == 0x85 ||
    (0xA0 ≤ n && n ≤ 0xFFFD) || 0x10000 ≤ n

end Yaml
end TreeLint
