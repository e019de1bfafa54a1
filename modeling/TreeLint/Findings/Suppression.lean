/-
# Directives that suppress diagnostics

A line `#pragma warning disable` or `#pragma warning restore`, possibly with a
list of ids and a comment, switches diagnostics off and on from there. At an
offset the last directive at or before it that applies to an id decides.

The keywords are recognised by simple folding, but the action is decided by the
spelling in ASCII: a directive whose keyword is not spelled `disable` up to
ASCII case is a restore.

Key definitions: `Pragma.ofLine?`, `Pragma.parse`, `Pragma.appliesTo`,
`Pragma.active?`, `Pragma.partition`.
-/
import TreeLint.Findings.Basic
import TreeLint.Text.Cursor

namespace TreeLint
namespace Pragma

/-- A space or a tab. -/
def isGap (c : Cell) : Bool := c.char == ' ' || c.char == '\t'

/-- The part of a text before the first `//`. -/
def beforeComment : Cells → Cells
  | [] => []
  | c :: cs =>
    if c.char = '/' ∧ cs.head?.any (·.char == '/') then [] else c :: beforeComment cs

/-- The ids of a list: the pieces between commas, trimmed, without the empty ones. -/
def idsOf (text : Cells) : List String :=
  (((beforeComment text).splitOn ',').map Cells.trim).filterMap fun id =>
    if id.isEmpty then none else some id.text

/-- The keyword of a directive, and the place after it. -/
def keyword? (c : Cursor) : Option Cursor :=
  match (c.word? "disable".toList).or (c.word? "restore".toList) with
  | some d => if d.atWordEdge then some d else none
  | none => none

/-- The directive of a line: its action and its ids. -/
def ofLine? (line : Cells) : Option (PragmaAction × List String) := do
  let c : Cursor := ⟨none, 0, line⟩
  let c ← (c.skipWhile isGap).mark? '#'
  let c ← c.word? "pragma".toList
  let c ← c.some? isGap
  let c ← c.word? "warning".toList
  let c ← c.some? isGap
  let d ← keyword? c
  let word := (line.slice (c.upTo d)).text
  let action := if Name.lower word == "disable" then PragmaAction.disable else .restore
  return (action, idsOf (d.rest.takeWhile fun x => x.char != '\r'))

/-- The directives among numbered lines. -/
def ofLines (number : Nat) : List (Nat × Cells) → List Pragma
  | [] => []
  | (offset, line) :: later =>
    match ofLine? line with
    | some (action, ids) => ⟨action, ids, number, offset⟩ :: ofLines (number + 1) later
    | none => ofLines (number + 1) later

/-- The directives of a source text, in order. -/
def parse (source : String) : List Pragma := ofLines 1 ((Cells.ofString source).lines 0)

/-- Whether the directive is about an id. -/
def appliesTo (p : Pragma) (id : String) : Bool :=
  p.ids.isEmpty || p.ids.any (Name.eqIgnoreCase · id)

/-- The directive in force after a list of directives, if the last one that applies disables. -/
def lastActive (id : String) (current : Option Pragma) : List Pragma → Option Pragma
  | [] => current
  | p :: ps =>
    if p.appliesTo id then
      match p.action with
      | .disable => lastActive id (some p) ps
      | .restore => lastActive id none ps
    else lastActive id current ps

/-- The directive that disables an id at an offset. -/
def active? (ps : List Pragma) (id : String) (offset : Nat) : Option Pragma :=
  lastActive id none (ps.takeWhile fun p => p.offset ≤ offset)

/-- Parts diagnostics into those that are reported and those that a directive suppresses, in
order. -/
def partition (ps : List Pragma) : List Diagnostic → List Diagnostic × List Suppressed
  | [] => ([], [])
  | d :: ds =>
    let rest := partition ps ds
    match active? ps d.id d.span.startByte with
    | some p => (rest.1, ⟨d, p⟩ :: rest.2)
    | none => (d :: rest.1, rest.2)

/-- Parts diagnostics by the directives; without directives there is nothing to part. -/
def filter (ps : List Pragma) (ds : List Diagnostic) : List Diagnostic × List Suppressed :=
  if ps.isEmpty then (ds, []) else partition ps ds

end Pragma
end TreeLint
