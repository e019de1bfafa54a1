/-
# Lines, columns and spans

Lines and columns count from one, and a column counts bytes from the start of
its line. The line starts of a text are the offset zero and the offset after
each line feed, so an offset past the end still has a place on the last line.

Key definitions: `Span`, `LineIndex.ofCells`, `LineIndex.position`,
`LineIndex.span`.
-/
import TreeLint.Text.Cell

namespace TreeLint

/-- A stretch of source text: byte offsets, and the line and column of both ends. -/
structure Span where
  startByte : Nat
  endByte : Nat
  startLine : Nat
  startCol : Nat
  endLine : Nat
  endCol : Nat
deriving DecidableEq, Repr

namespace Span

/-- Whether the other span lies within this one. -/
def contains (outer inner : Span) : Bool :=
  outer.startByte ≤ inner.startByte && inner.endByte ≤ outer.endByte

/-- The byte interval of the span. -/
def extent (s : Span) : Extent := ⟨s.startByte, s.endByte⟩

/-- Where the span starts, as `line:column`. -/
def display (s : Span) : String := s!"{s.startLine}:{s.startCol}"

end Span

/-- The offsets at which the lines of a text start, after the first line. -/
structure LineIndex where
  starts : List Nat
deriving DecidableEq, Repr

namespace LineIndex

/-- The offset after each line feed of a text whose first byte has offset `i`. -/
def startsFrom (i : Nat) : Cells → List Nat
  | [] => []
  | c :: cs => if c.char = '\n' then (i + 1) :: startsFrom (i + 1) cs else startsFrom (i + 1) cs

/-- The line index of a text. -/
def ofCells (cs : Cells) : LineIndex := ⟨startsFrom 0 cs⟩

/-- The place of an offset, given that line `line` starts at `start` and the later lines start
at the offsets listed. -/
def locate (line start : Nat) : List Nat → Nat → Nat × Nat
  | [], offset => (line, offset - start + 1)
  | s :: later, offset =>
    if s ≤ offset then locate (line + 1) s later offset else (line, offset - start + 1)

/-- Line and column of an offset. -/
def position (index : LineIndex) (offset : Nat) : Nat × Nat := locate 1 0 index.starts offset

/-- The span of a byte interval. -/
def span (index : LineIndex) (r : Extent) : Span :=
  let s := index.position r.start
  let e := index.position r.stop
  ⟨r.start, r.stop, s.1, s.2, e.1, e.2⟩

end LineIndex
end TreeLint
