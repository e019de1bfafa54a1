/-
# Routines of an object

A routine starts with its header; the lines of attributes directly above belong
to it. Its body is the block that starts with the first `begin` before the next
header, and its local variables stand between the first `var` after the
parameters and that `begin`. A declaration without a body ends at the next
semicolon. Headers inside the extent of the routine before them are skipped.

Key definitions: `Source.ResolveError`, `Source.Routine`, `Text.attributes`,
`Text.routineAt`, `Text.routines`.
-/
import TreeLint.Semantic.Tree
import TreeLint.Source.Text

namespace TreeLint
namespace Source

/-- Why a source text cannot be resolved. -/
inductive ResolveError where
  | noBody (place : Span)
  | notClosed (place : Span)
  | unknownObject (word : String)
  | unclosedParameters (place : Span)
  | unbalancedBlock (place : Span)
  | tree (e : TreeError)
deriving DecidableEq, Repr

/-- The text of an error. -/
def ResolveError.message : ResolveError → String
  | .noBody s => s!"object at {s.display} has no body"
  | .notClosed s => s!"object at {s.display} is not closed"
  | .unknownObject w => s!"unknown object type {w}"
  | .unclosedParameters s => s!"unclosed parameter list at {s.display}"
  | .unbalancedBlock s => s!"unbalanced begin/end at {s.display}"
  | .tree e => e.message

/-- A routine and the intervals of its parts. -/
structure Routine where
  kind : RoutineKind
  name : Extent
  obsolete : Bool
  /-- From the first attribute line through the closing `end` or the semicolon. -/
  extent : Extent
  header : Nat
  parameters : Extent
  locals : Option Extent
  body : Option Extent
deriving Repr

/-- Whether a line starts with a bracket. -/
def isAttributeLine (line : Cells) : Bool := line.trimStart.head?.any (·.char == '[')

/-- Goes up over attribute lines, nearest first: the offset of the last one taken, and whether
one of them marks the routine as obsolete. -/
def attributeRun (start : Nat) (obsolete : Bool) : List (Nat × Cells) → Nat × Bool
  | [] => (start, obsolete)
  | (lineAt, line) :: above =>
    if isAttributeLine line then attributeRun lineAt (obsolete || isObsoleteAttribute line) above
    else (start, obsolete)

namespace Text

/-- Where the attribute lines directly above a header start, and whether one of them is
`[Obsolete]`; lines above the floor are not looked at. -/
def attributes (t : Text) (header floor : Nat) : Nat × Bool :=
  let start := t.lineStart header
  if start ≤ floor then (start, false)
  else attributeRun start false
    ((t.bare.slice ⟨floor, start - 1⟩).lines floor).reverse

/-- The local section, the body and the end of a routine whose parameter list closes at a place;
the text of the place ends with the members of its object. -/
def routineBody (t : Text) (close : Cursor) :
    Except ResolveError (Option Extent × Option Extent × Nat) :=
  let header := match routineHeader.first? close with
    | some f => close.stopAt f.extent.start
    | none => close
  match (keyword "begin").first? header with
  | some opening =>
    match closingEnd? (close.moveTo opening.extent.start) with
    | none => .error (.unbalancedBlock (t.span opening.extent))
    | some stop =>
      let locals := ((keyword "var").first? (close.stopAt opening.extent.start)).map fun f =>
        (⟨f.extent.stop, opening.extent.start⟩ : Extent)
      .ok (locals, some ⟨opening.extent.start, stop⟩, stop)
  | none =>
    let semicolon := (close.rest.findChar? ';' close.pos).getD close.pos
    .ok (none, none, semicolon + 1)

/-- The routine of a header among the members of an object, given the place where they start;
`last` is the end of the routine before it. -/
def routineAt (t : Text) (members : Cursor) (last : Option Nat) (h : Found RoutineHeader) :
    Except ResolveError Routine :=
  let opening := h.extent.stop - 1
  match closingParen? (members.moveTo opening) with
  | none => .error (.unclosedParameters (t.span ⟨opening, opening + 1⟩))
  | some close =>
    match t.routineBody (members.moveTo close) with
    | .error e => .error e
    | .ok (locals, body, stop) =>
      let (start, obsolete) := t.attributes h.extent.start (last.getD members.pos)
      .ok {
        kind := h.value.kind
        name := h.value.name
        obsolete
        extent := ⟨start, stop⟩
        header := h.extent.start
        parameters := ⟨opening + 1, close⟩
        locals
        body }

/-- The routines of a list of headers, none of which starts before the end of the one before. -/
def routinesOf (t : Text) (members : Cursor) (last : Option Nat) :
    List (Found RoutineHeader) → Except ResolveError (List Routine)
  | [] => .ok []
  | h :: hs =>
    if last.any (h.extent.start < ·) then routinesOf t members last hs
    else
      match t.routineAt members last h with
      | .error e => .error e
      | .ok r =>
        match routinesOf t members (some r.extent.stop) hs with
        | .error e => .error e
        | .ok rs => .ok (r :: rs)

/-- The routines among the members of an object. -/
def routines (t : Text) (members : Extent) : Except ResolveError (List Routine) :=
  let start := Cursor.ofSlice t.bare members
  t.routinesOf start none (routineHeader.all start)

end Text
end Source
end TreeLint
