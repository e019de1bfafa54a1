/-
# Prepared source text

The two blanked copies of a source text, its brace depths and its line index,
and the searches that need them: names, matching brackets and blocks, properties
at a depth, and splitting at commas.

Key definitions: `Source.Text`, `Text.ofCells`, `Text.name`,
`Text.closingBrace?`, `Source.closingParen?`, `Source.closingEnd?`,
`Text.property?`, `Text.arguments`.
-/
import TreeLint.Source.Mask
import TreeLint.Source.Pattern
import TreeLint.Text.Name
import TreeLint.Text.Position

namespace TreeLint
namespace Source

/-- A source text prepared for scanning. -/
structure Text where
  masked : Cells
  bare : Cells
  depths : List Nat
  lines : LineIndex
deriving Repr

/-- The brace depth before each byte and at the end; a surplus closing brace does not count. -/
def depthsFrom (depth : Nat) : Cells → List Nat
  | [] => [depth]
  | c :: cs =>
    depth :: depthsFrom
      (if c.char = '\x7b' then depth + 1 else if c.char = '\x7d' then depth - 1 else depth) cs

/-- The first closing brace at a depth; each byte is given with the depth before it. -/
def braceEnd (inner pos : Nat) : Cells → List Nat → Option Nat
  | c :: cs, d :: ds =>
    if c.char = '\x7d' ∧ d = inner then some pos else braceEnd inner (pos + 1) cs ds
  | _, _ => none

/-- Counts parentheses from `depth` on and answers the offset of the one that brings the count to
zero. -/
def parenEnd (depth pos : Nat) : Cells → Option Nat
  | [] => none
  | c :: cs =>
    if c.char = '(' then parenEnd (depth + 1) (pos + 1) cs
    else if c.char = ')' then
      if depth ≤ 1 then some pos else parenEnd (depth - 1) (pos + 1) cs
    else parenEnd depth (pos + 1) cs

/-- Counts block words from `depth` on and answers the end of the one that brings the count to
zero. -/
def blockEnd (depth : Nat) : List (Found BlockToken) → Option Nat
  | [] => none
  | f :: fs =>
    match f.value with
    | .opener => blockEnd (depth + 1) fs
    | .closer =>
      match depth with
      | 0 => none
      | 1 => some f.extent.stop
      | depth + 1 => blockEnd depth fs

/-- Reads the block words of the rest of a text, none of which starts within the next `skip` bytes,
until they bring the count to zero, and answers the end of the one that does. -/
def blockEndFrom (depth : Nat) : Nat → Option Cell → Nat → Cells → Option Nat
  | _, _, _, [] => none
  | skip + 1, _, pos, c :: cs => blockEndFrom depth skip (some c) (pos + 1) cs
  | 0, before, pos, c :: cs =>
    match blockToken ⟨before, pos, c :: cs⟩, depth with
    | none, depth => blockEndFrom depth 0 (some c) (pos + 1) cs
    | some (.opener, d), depth =>
      blockEndFrom (depth + 1) (d.pos - pos - 1) (some c) (pos + 1) cs
    | some (.closer, _), 0 => none
    | some (.closer, d), 1 => some d.pos
    | some (.closer, d), depth + 2 =>
      blockEndFrom (depth + 1) (d.pos - pos - 1) (some c) (pos + 1) cs

/-- Reading up to the end of a block agrees with reading all block words and counting them. -/
theorem blockEndFrom_eq_blockEnd (depth skip : Nat) (before : Option Cell) (pos : Nat)
    (cs : Cells) :
    blockEndFrom depth skip before pos cs =
      blockEnd depth (blockToken.allFrom skip before pos cs) := by
  induction cs generalizing depth skip before pos with
  | nil => simp [blockEndFrom, Pattern.allFrom, blockEnd]
  | cons c cs ih =>
    cases skip with
    | succ skip => simp [blockEndFrom, Pattern.allFrom, ih]
    | zero =>
      simp only [blockEndFrom, Pattern.allFrom]
      match h : blockToken ⟨before, pos, c :: cs⟩, depth with
      | none, depth => simp [ih]
      | some (.opener, d), depth => simp [blockEnd, ih]
      | some (.closer, d), 0 => simp [blockEnd]
      | some (.closer, d), 1 => simp [blockEnd]
      | some (.closer, d), depth + 2 => simp [blockEnd, ih]

/-- The closing parenthesis that belongs to the opening one at a place. -/
def closingParen? (opening : Cursor) : Option Nat := parenEnd 0 opening.pos opening.rest

/-- The end of the block that the word at a place opens. -/
def closingEnd? (opening : Cursor) : Option Nat := blockEndFrom 0 0 none opening.pos opening.rest

/-- The pieces between the commas at bracket depth zero. -/
def piecesFrom (depth start pos : Nat) : Cells → List Extent
  | [] => [⟨start, pos⟩]
  | c :: cs =>
    if c.char = '(' ∨ c.char = '[' then piecesFrom (depth + 1) start (pos + 1) cs
    else if c.char = ')' ∨ c.char = ']' then piecesFrom (depth - 1) start (pos + 1) cs
    else if c.char = ',' ∧ depth = 0 then ⟨start, pos⟩ :: piecesFrom 0 (pos + 1) (pos + 1) cs
    else piecesFrom depth start (pos + 1) cs

namespace Text

/-- Prepares a source text. -/
def ofCells (source : Cells) : Text where
  masked := Source.masked source
  bare := Source.bare source
  depths := depthsFrom 0 (Source.bare source)
  lines := LineIndex.ofCells source

/-- The length of the text in bytes. -/
def length (t : Text) : Nat := t.bare.length

/-- The span of an interval. -/
def span (t : Text) (r : Extent) : Span := t.lines.span r

/-- The brace depth before an offset. -/
def depth (t : Text) (i : Nat) : Nat := t.depths.getD i 0

/-- The name written in an interval, without quotes. -/
def name (t : Text) (r : Extent) : String := Name.unquote (t.masked.slice r).text

/-- The closing brace that belongs to the opening brace at an offset: the first one behind it at
the depth inside. -/
def closingBrace? (t : Text) (opening : Nat) : Option Nat :=
  braceEnd (t.depth opening + 1) (opening + 1) (t.bare.drop (opening + 1))
    (t.depths.drop (opening + 1))

/-- The value of the first property of the given form at a brace depth. -/
def property? (t : Text) (p : Pattern Extent) (r : Extent) (depth : Nat) : Option Extent :=
  ((p.all (Cursor.ofSlice t.bare r)).find? fun f => t.depth f.extent.start == depth).map (·.value)

/-- The offset at which the line of an offset starts. -/
def lineStart (t : Text) (i : Nat) : Nat := i + 1 - (t.lines.position i).2

/-- An interval without the blanks at its ends; a blank interval shrinks to its end. -/
def trim (t : Text) (r : Extent) : Extent :=
  let piece := t.bare.slice r
  let start := r.start + piece.leadingBlanks
  ⟨start, max (r.stop - piece.trailingBlanks) start⟩

/-- The arguments between two parentheses: the pieces between the commas, trimmed. -/
def arguments (t : Text) (r : Extent) : List Extent :=
  if (t.bare.slice r).isBlank then []
  else (piecesFrom 0 r.start r.start (t.bare.slice r)).map t.trim

end Text
end Source
end TreeLint
