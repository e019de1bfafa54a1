/-
# Glob patterns and what they match

A pattern is compiled to an expression over the bytes of a path. Every wildcard
may match a slash; `**` is special only as a whole component of the path. An
expression is matched by following all positions that can be reached in the
path, so matching never backs up.

Key definitions: `Glob.Token`, `Glob.Expr`, `Glob.Expr.ofTokens`,
`Glob.Expr.reach`, `Glob.Expr.accepts`.
-/
import TreeLint.Text.CharClass

namespace TreeLint
namespace Glob

/-- The parts of a pattern. -/
inductive Token where
  | literal (c : Char)
  | any
  | run
  | recursiveStart
  | recursiveMiddle
  | recursiveEnd
  | set (negated : Bool) (ranges : List (Char × Char))
  | alternates (branches : List (List Token))
deriving Repr

/-- The UTF-8 bytes of a character. -/
def bytesOf (c : Char) : List UInt8 := (String.ofList [c]).toUTF8.toList

/-- An expression over bytes. -/
inductive Expr where
  | empty
  | byte (ranges : List (UInt8 × UInt8)) (negated : Bool)
  | run
  | seq (first second : Expr)
  | alt (left right : Expr)
deriving Repr

namespace Expr

/-- Exactly one byte. -/
def one (b : UInt8) : Expr := .byte [(b, b)] false

/-- Any byte. -/
def any : Expr := .byte [] true

/-- The bytes of a character, in order. -/
def literal (c : Char) : Expr := (bytesOf c).foldr (fun b e => .seq (one b) e) .empty

/-- A slash. -/
def slash : Expr := literal '/'

/-- Adds the bytes of a range of a class: the range runs from the last byte of its first character
to the first byte of its last character, and the other bytes stand for themselves. -/
def setRanges (r : Char × Char) : List (UInt8 × UInt8) :=
  if r.1 = r.2 then (bytesOf r.1).map fun b => (b, b)
  else
    let low := bytesOf r.1
    let high := bytesOf r.2
    (low.dropLast.map fun b => (b, b)) ++ [(low.getLastD 0, high.headD 0)] ++
      (high.tail.map fun b => (b, b))

end Expr

mutual

/-- Whether a part matches nothing but the empty text and is left out of a choice. -/
def isVacuous : Token → Bool
  | .alternates branches => areVacuous branches
  | _ => false

/-- Whether all parts of a branch are left out. -/
def isVacuousBranch : List Token → Bool
  | [] => true
  | t :: ts => isVacuous t && isVacuousBranch ts

/-- Whether all branches are left out. -/
def areVacuous : List (List Token) → Bool
  | [] => true
  | b :: bs => isVacuousBranch b && areVacuous bs

end

mutual

/-- The expression of a part. -/
def Expr.ofToken : Token → Expr
  | .literal c => Expr.literal c
  | .any => Expr.any
  | .run => .run
  | .recursiveStart => .alt (.alt .empty Expr.slash) (.seq .run Expr.slash)
  | .recursiveMiddle => .alt Expr.slash (.seq Expr.slash (.seq .run Expr.slash))
  | .recursiveEnd => .seq Expr.slash .run
  | .set negated ranges => .byte (ranges.flatMap Expr.setRanges) negated
  | .alternates branches => (Expr.ofBranches? branches).getD .empty

/-- The expression of parts in a row. -/
def Expr.ofSequence : List Token → Expr
  | [] => .empty
  | t :: ts => .seq (Expr.ofToken t) (Expr.ofSequence ts)

/-- The choice between the branches that are not left out. -/
def Expr.ofBranches? : List (List Token) → Option Expr
  | [] => none
  | b :: bs =>
    if isVacuousBranch b then Expr.ofBranches? bs
    else match Expr.ofBranches? bs with
      | some e => some (.alt (Expr.ofSequence b) e)
      | none => some (Expr.ofSequence b)

end

/-- The expression of a pattern; a pattern that is `**` alone matches everything. -/
def Expr.ofTokens : List Token → Expr
  | [.recursiveStart] => .run
  | ts => Expr.ofSequence ts

/-- Positions in order without repetitions. -/
def distinct : List Nat → List Nat
  | p :: q :: rest => if p = q then distinct (q :: rest) else p :: distinct (q :: rest)
  | positions => positions

/-- The positions in a path, in order, to which an expression leads from given positions in
order. -/
def Expr.reach (path : Array UInt8) : Expr → List Nat → List Nat
  | .empty, positions => positions
  | .byte ranges negated, positions =>
    positions.filterMap fun p =>
      match path[p]? with
      | some b => if (ranges.any fun r => r.1 ≤ b && b ≤ r.2) != negated then some (p + 1) else none
      | none => none
  | .run, [] => []
  | .run, p :: _ => List.range' p (path.size + 1 - p)
  | .seq a b, positions => b.reach path (a.reach path positions)
  | .alt a b, positions =>
    distinct ((a.reach path positions).merge (b.reach path positions) fun p q => p ≤ q)

/-- Whether an expression matches the whole of a path. -/
def Expr.accepts (e : Expr) (path : Array UInt8) : Bool := (e.reach path [0]).contains path.size

end Glob
end TreeLint
