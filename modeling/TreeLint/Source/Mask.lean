/-
# Code, quoted names and what is hidden

Source text is scanned in two copies. In the first, comments and the contents of
string literals are replaced by blanks; in the second, the contents of quoted
names as well. Line breaks stay, and every byte is replaced by one byte, so an
offset in either copy is an offset in the source.

A machine with one byte of look-ahead gives each byte its layer. A line comment
ends before the line feed, a block comment with `*/`. A string literal ends at
the next apostrophe that is not doubled, on whatever line it is; a quoted name
ends at the next quote or at the end of the line.

Key definitions: `Source.Layer`, `Source.MaskState`, `Source.maskStep`,
`Source.layers`, `Source.masked`, `Source.bare`.
-/
import TreeLint.Text.Cell

namespace TreeLint
namespace Source

/-- What a byte of source text belongs to. -/
inductive Layer where
  | code
  | name
  | hidden
deriving DecidableEq, Repr

/-- Where the scanner stands. The states for the second byte of a two-byte mark are entered when
look-ahead has seen that byte. -/
inductive MaskState where
  | code
  | lineComment
  | blockStart
  | block
  | blockEnd
  | literal
  | literalQuote
  | name
deriving DecidableEq, Repr

/-- The layer of a byte, given the byte after it, and where the scanner stands then. -/
def maskStep (s : MaskState) (c : Char) (next : Option Char) : Layer × MaskState :=
  match s with
  | .code =>
    if c = '/' ∧ next = some '/' then (.hidden, .lineComment)
    else if c = '/' ∧ next = some '*' then (.hidden, .blockStart)
    else if c = '\'' then (.code, .literal)
    else if c = '"' then (.code, .name)
    else (.code, .code)
  | .lineComment => if c = '\n' then (.code, .code) else (.hidden, .lineComment)
  | .blockStart => (.hidden, .block)
  | .block => if c = '*' ∧ next = some '/' then (.hidden, .blockEnd) else (.hidden, .block)
  | .blockEnd => (.hidden, .code)
  | .literal =>
    if c = '\'' then
      if next = some '\'' then (.hidden, .literalQuote) else (.code, .code)
    else (.hidden, .literal)
  | .literalQuote => (.hidden, .literal)
  | .name => if c = '"' ∨ c = '\n' then (.code, .code) else (.name, .name)

/-- The layers of the rest of a text, from where the scanner stands. -/
def layersFrom (s : MaskState) : Cells → List Layer
  | [] => []
  | c :: cs =>
    let step := maskStep s c.char (cs.head?.map (·.char))
    step.1 :: layersFrom step.2 cs

/-- The layers of a text. -/
def layers (cs : Cells) : List Layer := layersFrom .code cs

/-- A byte with the layers of `hide` blanked; a line break always stays. -/
def cover (hide : Layer → Bool) (l : Layer) (c : Cell) : Cell :=
  if hide l ∧ c.char ≠ '\n' ∧ c.char ≠ '\r' then Cell.space else c

/-- The text with comments and string contents blanked. -/
def masked (cs : Cells) : Cells := List.zipWith (cover (· == .hidden)) (layers cs) cs

/-- The text with comments, string contents and the contents of quoted names blanked. -/
def bare (cs : Cells) : Cells := List.zipWith (cover (· != .code)) (layers cs) cs

theorem length_layersFrom : ∀ (s : MaskState) (cs : Cells), (layersFrom s cs).length = cs.length
  | _, [] => rfl
  | s, c :: cs => by simp [layersFrom, length_layersFrom _ cs]

/-- Blanking keeps every offset. -/
theorem length_masked (cs : Cells) : (masked cs).length = cs.length := by
  simp [masked, layers, length_layersFrom]

/-- Blanking keeps every offset. -/
theorem length_bare (cs : Cells) : (bare cs).length = cs.length := by
  simp [bare, layers, length_layersFrom]

end Source
end TreeLint
