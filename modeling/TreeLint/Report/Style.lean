/-
# Styled text

Reports for a terminal set some pieces of text off by weight and colour. A piece
is painted by an escape sequence before it and a reset after it; a reset within
the piece is followed by the sequence again, so that the style holds to its end.
Without colours a piece is its plain text.

Key definitions: `Style`, `Style.paint`, `Style.padTo`.
-/

namespace TreeLint

/-- The weight of a piece of text. -/
inductive Weight where
  | normal
  | bold
  | dimmed
deriving DecidableEq, Repr

/-- The colour of a piece of text. -/
inductive Hue where
  | red
  | green
  | yellow
  | blue
  | cyan
deriving DecidableEq, Repr

/-- How a piece of text is set off. -/
structure Style where
  weight : Weight := .normal
  hue : Option Hue := none
deriving DecidableEq, Repr

namespace Style

/-- Bold text. -/
def bold : Style := { weight := .bold }

/-- Dimmed text. -/
def dimmed : Style := { weight := .dimmed }

/-- Text in a colour. -/
def colored (h : Hue) : Style := { hue := some h }

/-- The code of a weight. -/
def weightCode : Weight → List String
  | .normal => []
  | .bold => ["1"]
  | .dimmed => ["2"]

/-- The code of a colour. -/
def hueCode : Hue → String
  | .red => "31"
  | .green => "32"
  | .yellow => "33"
  | .blue => "34"
  | .cyan => "36"

/-- The codes of a style, the weight first. -/
def codes (s : Style) : List String := weightCode s.weight ++ (s.hue.map hueCode).toList

/-- The sequence that ends every style. -/
def reset : List Char := ['\x1b', '[', '0', 'm']

/-- The sequence that starts a style. -/
def start (s : Style) : List Char :=
  ['\x1b', '['] ++ (String.intercalate ";" s.codes).toList ++ ['m']

/-- A text with the sequence `again` after each reset in it; the first `skip` characters end a
reset that is already read. -/
def renew (again : List Char) : Nat → List Char → List Char
  | _, [] => []
  | 0, c :: cs =>
    if reset.isPrefixOf (c :: cs) then reset ++ again ++ renew again 3 cs
    else c :: renew again 0 cs
  | skip + 1, _ :: cs => renew again skip cs

/-- A text with blanks after it up to a width. -/
def padTo (width : Nat) (cs : List Char) : List Char :=
  cs ++ List.replicate (width - cs.length) ' '

/-- A piece of text in a style, padded to a width within the style. -/
def paint (color : Bool) (s : Style) (text : String) (width : Nat) : String :=
  if color && !s.codes.isEmpty then
    String.ofList (s.start ++ padTo width (renew s.start 0 text.toList) ++ reset)
  else String.ofList (padTo width text.toList)

end Style
end TreeLint
