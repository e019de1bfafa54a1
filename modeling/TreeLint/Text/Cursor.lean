/-
# Places in a text and patterns tried there

A cursor is a place in a text: its offset, the byte before it and the bytes from
it on. A pattern is a function that looks at a cursor and answers what it found
and the cursor after it. A search tries a pattern at every place from left to
right; a search for all matches goes on where the last match ended. Every
pattern of this library takes at least one byte.

Key definitions: `Cursor`, `Cursor.word?`, `Cursor.name?`, `Pattern`,
`Pattern.first?`, `Pattern.all`.
-/
import TreeLint.Text.Cell

namespace TreeLint

/-- A place in a text. -/
structure Cursor where
  before : Option Cell
  pos : Nat
  rest : Cells
deriving Repr

namespace Cursor

/-- The start of an interval, seen as a text of its own. -/
def ofSlice (cs : Cells) (r : Extent) : Cursor := ⟨none, r.start, cs.slice r⟩

/-- A later place in the same text. -/
def moveTo (c : Cursor) (pos : Nat) : Cursor :=
  match pos - c.pos with
  | 0 => c
  | n + 1 => ⟨c.rest[n]?, c.pos + (n + 1), c.rest.drop (n + 1)⟩

/-- The same place in a text that ends at `limit`. -/
def stopAt (c : Cursor) (limit : Nat) : Cursor := { c with rest := c.rest.take (limit - c.pos) }

/-- The place a number of bytes on. -/
def advance : Nat → Cursor → Cursor
  | 0, c => c
  | n + 1, c =>
    match c.rest with
    | [] => c
    | x :: xs => advance n ⟨some x, c.pos + 1, xs⟩

/-- The place after the bytes that satisfy a condition. -/
def skipWhile (p : Cell → Bool) (c : Cursor) : Cursor :=
  c.advance (c.rest.takeWhile p).length

/-- The place after any white space. -/
def blanks (c : Cursor) : Cursor := c.skipWhile Cell.isBlank

/-- The place after bytes that satisfy a condition, if there are any. -/
def some? (p : Cell → Bool) (c : Cursor) : Option Cursor :=
  if c.rest.head?.any p then some (c.skipWhile p) else none

/-- The place after white space, if there is any. -/
def blanks? (c : Cursor) : Option Cursor := c.some? Cell.isBlank

/-- Whether a word starts or ends here. -/
def atWordEdge (c : Cursor) : Bool := c.before.any Cell.isWord != c.rest.head?.any Cell.isWord

/-- The place after an ASCII character that stands here. -/
def mark? (x : Char) (c : Cursor) : Option Cursor :=
  if c.rest.head?.any (·.char == x) then some (c.advance 1) else none

/-- The place after a word of lower-case letters, in any case, that stands here. -/
def word? : List Char → Cursor → Option Cursor
  | [], c => some c
  | k :: ks, c =>
    match c.rest with
    | x :: _ => if CharClass.folds k x.char then word? ks (c.advance x.char.utf8Size) else none
    | [] => none

/-- The place after a whole word, in any case, that stands here. -/
def wholeWord? (w : List Char) (c : Cursor) : Option Cursor :=
  if c.atWordEdge then
    match c.word? w with
    | some d => if d.atWordEdge then some d else none
    | none => none
  else none

/-- The interval from one place to a later one. -/
def upTo (c d : Cursor) : Extent := ⟨c.pos, d.pos⟩

/-- The place after a quoted name that stands here: a quote, anything but quotes, a quote. -/
def quoted? (c : Cursor) : Option Cursor :=
  match c.mark? '"' with
  | some d => (d.skipWhile fun x => x.char != '"').mark? '"'
  | none => none

/-- The place after a plain name that stands here: a first character from `letter` or an
underscore, then word characters. -/
def plain? (letter : Char → Bool) (c : Cursor) : Option Cursor :=
  if c.rest.head?.any fun x => letter x.char || x.char == '_' then some (c.skipWhile Cell.isWord)
  else none

/-- The interval of a quoted or plain name that stands here, and the place after it. -/
def name? (letter : Char → Bool) (c : Cursor) : Option (Extent × Cursor) :=
  match (c.quoted?).or (c.plain? letter) with
  | some d => some (c.upTo d, d)
  | none => none

end Cursor

/-- What a pattern found, and where. -/
structure Found (α : Type) where
  extent : Extent
  value : α
deriving Repr

/-- A pattern, tried at one place. -/
abbrev Pattern (α : Type) := Cursor → Option (α × Cursor)

namespace Pattern

/-- The first match in the rest of a text. -/
def firstFrom (p : Pattern α) : Option Cell → Nat → Cells → Option (Found α)
  | _, _, [] => none
  | before, pos, c :: cs =>
    match p ⟨before, pos, c :: cs⟩ with
    | some (a, d) => some ⟨⟨pos, d.pos⟩, a⟩
    | none => firstFrom p (some c) (pos + 1) cs

/-- The first match at or after a place. -/
def first? (p : Pattern α) (c : Cursor) : Option (Found α) := p.firstFrom c.before c.pos c.rest

/-- The matches in the rest of a text, none of which starts within the next `skip` bytes. -/
def allFrom (p : Pattern α) : Nat → Option Cell → Nat → Cells → List (Found α)
  | _, _, _, [] => []
  | skip + 1, _, pos, c :: cs => allFrom p skip (some c) (pos + 1) cs
  | 0, before, pos, c :: cs =>
    match p ⟨before, pos, c :: cs⟩ with
    | some (a, d) => ⟨⟨pos, d.pos⟩, a⟩ :: allFrom p (d.pos - pos - 1) (some c) (pos + 1) cs
    | none => allFrom p 0 (some c) (pos + 1) cs

/-- The matches at or after a place, from left to right, none overlapping another. -/
def all (p : Pattern α) (c : Cursor) : List (Found α) := p.allFrom 0 c.before c.pos c.rest

end Pattern
end TreeLint
