/-
# How deeply glob patterns are nested

A pattern stands for a regular expression over bytes, and an expression may be
nested only so deep: a group, a choice, a row of two parts or more, a repetition
and a class each count as one level, and a class of two items or more as two.

Key definitions: `Glob.depth`, `Glob.depthLimit`, `Glob.expression`.
-/
import TreeLint.Glob.Basic

namespace TreeLint
namespace Glob

/-- How many parts of a row a part of a pattern becomes. -/
def width : Token → Nat
  | .literal c => (bytesOf c).length
  | .recursiveEnd => 2
  | .alternates branches => if areVacuous branches then 0 else 1
  | _ => 1

/-- The levels of a row of parts, given those of its deepest part. -/
def rowDepth (ts : List Token) (deepest : Nat) : Nat :=
  if ts.foldl (fun n t => n + width t) 0 ≤ 1 then deepest else deepest + 1

/-- The levels of a group of branches, given those of its deepest branch. -/
def groupDepth (branches : List (List Token)) (deepest : Nat) : Nat :=
  match (branches.filter fun b => !isVacuousBranch b).length with
  | 0 => 0
  | 1 => deepest + 1
  | _ => deepest + 2

mutual

/-- The levels of a part. -/
def partDepth : Token → Nat
  | .literal _ => 0
  | .any => 0
  | .run => 1
  | .recursiveStart => 4
  | .recursiveMiddle => 4
  | .recursiveEnd => 1
  | .set _ ranges => if (ranges.flatMap Expr.setRanges).length ≤ 1 then 1 else 2
  | .alternates branches => groupDepth branches (deepestBranch branches)

/-- The levels of the deepest of some parts. -/
def deepestPart : List Token → Nat
  | [] => 0
  | t :: ts => max (partDepth t) (deepestPart ts)

/-- The levels of the deepest of some branches. -/
def deepestBranch : List (List Token) → Nat
  | [] => 0
  | b :: bs => max (rowDepth b (deepestPart b)) (deepestBranch bs)

end

/-- The levels of the expression of a pattern. -/
def depth : List Token → Nat
  | [.recursiveStart] => 2
  | ts => deepestPart ts + 1

/-- How many levels an expression may have. -/
def depthLimit : Nat := 250

/-- Characters that have a meaning of their own in an expression. -/
def isReserved (c : Char) : Bool := "\\.+*?()|[]\x7b\x7d^$#&-~".toList.contains c

/-- A byte as it stands in an expression. -/
def byteText (b : UInt8) : List Char :=
  if b < 0x80 then
    let c := Char.ofNat b.toNat
    if isReserved c then ['\\', c] else [c]
  else ['\\', 'x'] ++ Nat.toDigits 16 b.toNat

/-- A character as it stands in an expression. -/
def charText (c : Char) : List Char := (bytesOf c).flatMap byteText

/-- A range of a class as it stands in an expression. -/
def rangeText (r : Char × Char) : List Char :=
  if r.1 = r.2 then charText r.1 else charText r.1 ++ ['-'] ++ charText r.2

mutual

/-- A part as it stands in an expression. -/
def partText : Token → List Char
  | .literal c => charText c
  | .any => ['.']
  | .run => ['.', '*']
  | .recursiveStart => "(?:/?|.*/)".toList
  | .recursiveMiddle => "(?:/|/.*/)".toList
  | .recursiveEnd => "/.*".toList
  | .set negated ranges =>
    ['['] ++ (if negated then ['^'] else []) ++ ranges.flatMap rangeText ++ [']']
  | .alternates branches =>
    let texts := (branchTexts branches).filter fun t => !t.isEmpty
    if texts.isEmpty then []
    else "(?:".toList ++ List.intercalate ['|'] texts ++ [')']

/-- Parts in a row as they stand in an expression. -/
def rowText : List Token → List Char
  | [] => []
  | t :: ts => partText t ++ rowText ts

/-- Branches as they stand in an expression. -/
def branchTexts : List (List Token) → List (List Char)
  | [] => []
  | b :: bs => rowText b :: branchTexts bs

end

/-- The expression of a pattern. -/
def expression (ts : List Token) : String :=
  let text := match ts with
    | [.recursiveStart] => ['.', '*']
    | ts => rowText ts
  String.ofList ("(?-u)^".toList ++ text ++ ['$'])

end Glob
end TreeLint
