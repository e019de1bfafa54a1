/-
# Marked places in a text

A text may mark places as `[|...|]`. Reading it strips the marks and gives the
byte interval of every marked place in what is left. Marks do not nest, and
every mark is closed; the first violation from the left is the error.

Key definitions: `MarkerError`, `MarkedSource`, `Marker.readFrom`,
`MarkedSource.ofString`.
-/
import TreeLint.Text.Cell

namespace TreeLint

/-- Why the marks of a text cannot be read; offsets are those of the marked text. -/
inductive MarkerError where
  | nested (offset : Nat)
  | unopened (offset : Nat)
  | unclosed (offset : Nat)
deriving DecidableEq, Repr

/-- The text of an error. -/
def MarkerError.message : MarkerError → String
  | .nested i => s!"marker opened at byte {i} inside another marker"
  | .unopened i => s!"marker closed at byte {i} without being opened"
  | .unclosed i => s!"marker opened at byte {i} is never closed"

/-- A text without its marks, and the marked intervals in order. -/
structure MarkedSource where
  source : String
  markers : List Extent
deriving DecidableEq, Repr

namespace Marker

/-- An opened mark: where the marked place starts in the stripped text, and where the mark
stands in the marked text. -/
structure Opened where
  start : Nat
  offset : Nat
deriving DecidableEq, Repr

/-- Puts a byte in front of what was read after it. -/
def keep (c : Cell) : Except MarkerError (Cells × List Extent) →
    Except MarkerError (Cells × List Extent)
  | .ok (cs, rs) => .ok (c :: cs, rs)
  | .error e => .error e

/-- Puts a marked interval in front of those read after it. -/
def mark (r : Extent) : Except MarkerError (Cells × List Extent) →
    Except MarkerError (Cells × List Extent)
  | .ok (cs, rs) => .ok (cs, r :: rs)
  | .error e => .error e

/-- Reads the rest of a marked text: `pos` bytes of it are read, `out` bytes are kept, and a mark
may be open. -/
def readFrom (pos out : Nat) (opened : Option Opened) :
    Cells → Except MarkerError (Cells × List Extent)
  | [] =>
    match opened with
    | some o => .error (.unclosed o.offset)
    | none => .ok ([], [])
  | [c] => keep c (readFrom (pos + 1) (out + 1) opened [])
  | c :: d :: cs =>
    if c.char = '[' ∧ d.char = '|' then
      match opened with
      | some _ => .error (.nested pos)
      | none => readFrom (pos + 2) out (some ⟨out, pos⟩) cs
    else if c.char = '|' ∧ d.char = ']' then
      match opened with
      | some o => mark ⟨o.start, out⟩ (readFrom (pos + 2) out none cs)
      | none => .error (.unopened pos)
    else keep c (readFrom (pos + 1) (out + 1) opened (d :: cs))

end Marker

/-- Reads a marked text. -/
def MarkedSource.ofString (s : String) : Except MarkerError MarkedSource :=
  match Marker.readFrom 0 0 none (Cells.ofString s) with
  | .ok (cs, rs) => .ok ⟨cs.text, rs⟩
  | .error e => .error e

end TreeLint
