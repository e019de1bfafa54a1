/-
# Block scalars of a YAML text

A block scalar keeps its lines, or folds them, and trims its end as its header
says. It goes on as long as lines are indented at least as far as its first one.
Only line feeds are folded.

Key definitions: `Yaml.BlockHeader`, `Yaml.Line`, `Yaml.BlockState`,
`Yaml.blockScalar?`.
-/
import TreeLint.Yaml.Scalar

namespace TreeLint
namespace Yaml

/-- What is done with the line breaks at the end of a block scalar. -/
inductive Chomping where
  | strip
  | clip
  | keep
deriving DecidableEq, Repr

/-- The header of a block scalar. -/
structure BlockHeader where
  chomping : Chomping := .clip
  indent : Option Nat := none
deriving Repr

/-- How the end is trimmed, if the header says it next, and the number of characters that say
it. -/
def chomping? : List Char → Option Chomping × Nat
  | '+' :: _ => (some .keep, 1)
  | '-' :: _ => (some .strip, 1)
  | _ => (none, 0)

/-- The indentation, if the header states it next, and the number of characters that state it; it
is not zero. -/
def statedIndent? : List Char → Option (Option Nat × Nat)
  | [] => some (none, 0)
  | c :: _ =>
    if c == '0' then none
    else if CharClass.isAsciiDigit c then some (some (c.toNat - '0'.toNat), 1)
    else some (none, 0)

/-- Reads the indicators after `|` or `>`: how to trim and the indentation, in either order; and
how many characters there are. -/
def blockHeader? (cs : List Char) : Option (BlockHeader × Nat) := do
  match chomping? cs with
  | (some chomping, n) =>
    let (indent, k) ← statedIndent? (cs.drop n)
    return ({ chomping, indent }, n + k)
  | (none, _) =>
    let (indent, k) ← statedIndent? cs
    let (chomping, n) := if indent.isSome then chomping? (cs.drop k) else (none, 0)
    return ({ chomping := chomping.getD .clip, indent }, n + k)

/-- A line and the character that ends it; the last line of a text has none. -/
structure Line where
  text : List Char
  ending : Option Char
deriving Repr

/-- The lines of a text. -/
def linesOf : List Char → List Line
  | [] => [⟨[], none⟩]
  | c :: cs =>
    if isBreak c then ⟨[], some c⟩ :: linesOf cs
    else match linesOf cs with
      | [] => [⟨[c], none⟩]
      | l :: ls => { l with text := c :: l.text } :: ls

/-- The text of lines. -/
def unlines (ls : List Line) : List Char := ls.flatMap fun l => l.text ++ l.ending.toList

/-- The blanks that a line starts with, up to a number. -/
def indentation (upTo : Nat) (l : Line) : Nat :=
  min upTo (l.text.takeWhile (· == ' ')).length

/-- The indentation of a block scalar that does not state it: that of its first line with text,
or of an earlier line of blanks if that is deeper. A tab in the indentation is refused. -/
def detectIndent? (deepest : Nat) : List Line → Option Nat
  | [] => some deepest
  | l :: ls =>
    let n := (l.text.takeWhile (· == ' ')).length
    let deepest := max deepest n
    match l.text.drop n, l.ending with
    | '\t' :: _, _ => none
    | [], some _ => detectIndent? deepest ls
    | _, _ => some deepest

/-- Skips lines of blanks: the characters that end them, in reverse, and the lines from the first
other one on. A tab in the indentation is refused. -/
def skipBlankLines? (indent : Nat) (breaks : List Char) : List Line →
    Option (List Char × List Line)
  | [] => some (breaks, [])
  | l :: ls =>
    let n := indentation indent l
    match l.text.drop n, l.ending with
    | '\t' :: _, _ => if n < indent then none else some (breaks, l :: ls)
    | [], some b => skipBlankLines? indent (b :: breaks) ls
    | _, _ => some (breaks, l :: ls)

/-- What is known while the lines of a block scalar are read: the text so far in reverse, the line
break after it, the further ones in reverse, and whether the last line started with a blank. -/
structure BlockState where
  text : List Char := []
  lineBreak : Option Char := none
  further : List Char := []
  ledBlank : Bool := false
deriving Repr

/-- What a line break within a folded scalar, with the further ones after it, is replaced by. -/
def foldedBreak (lineBreak : Option Char) (further : List Char) : List Char :=
  match lineBreak with
  | some '\n' => if further.isEmpty then [' '] else []
  | b => b.toList

/-- Adds a line to a block scalar. -/
def BlockState.addLine (s : BlockState) (literal : Bool) (line : List Char)
    (ending : Option Char) : BlockState :=
  let blank := line.head?.any isBlank
  let joint :=
    if !literal && !s.ledBlank && !blank then foldedBreak s.lineBreak s.further
    else s.lineBreak.toList
  { text := line.reverse ++ (s.further ++ (joint ++ s.text))
    lineBreak := ending
    ledBlank := blank }

/-- The text of a block scalar in reverse, trimmed as its header says. -/
def BlockState.finish (s : BlockState) : Chomping → List Char
  | .strip => s.text
  | .clip => s.lineBreak.toList ++ s.text
  | .keep => s.further ++ (s.lineBreak.toList ++ s.text)

/-- Reads the lines of a block scalar, up to a number of lines: the state after the last, how many
lines were taken, and the lines that are left. -/
def blockLines? (literal : Bool) (indent : Nat) : Nat → BlockState → Nat → List Line →
    Option (BlockState × Nat × List Line)
  | 0, s, taken, ls => some (s, taken, ls)
  | fuel + 1, s, taken, ls =>
    match ls with
    | [] => some (s, taken, [])
    | l :: rest =>
      let body := l.text.drop indent
      if indentation indent l < indent || (body.isEmpty && l.ending.isNone) then some (s, taken, ls)
      else
        match skipBlankLines? indent [] rest with
        | none => none
        | some (further, left) =>
          let s := s.addLine literal body l.ending
          blockLines? literal indent fuel { s with further } (taken + 1 + further.length) left

/-- Reads a block scalar from the line after its header. `parent` is one more than the indentation
around it. -/
def blockScalar? (literal : Bool) (header : BlockHeader) (parent : Nat) (x : Place) :
    Option ScalarEnd := do
  let ls := linesOf x.rest
  let indent ← match header.indent with
    | some n => some (parent - 1 + n)
    | none => (detectIndent? 0 ls).map fun deepest => max (max deepest parent) 1
  let (further, ls) ← skipBlankLines? indent [] ls
  let (s, taken, left) ← blockLines? literal indent (ls.length + 1) { further } further.length ls
  let col := (left.head?.map (indentation indent)).getD 0
  let mark : Mark := ⟨x.mark.line + taken, col, col⟩
  return ⟨s.finish header.chomping, true, ⟨mark, (unlines left).drop col⟩⟩

end Yaml
end TreeLint
