/-
# Plain and quoted scalars of a YAML text

A single line feed within a scalar is read as a blank, each further line break
as itself, and the blanks around line breaks are dropped. A line or paragraph
separator is kept where it stands.

Key definitions: `Yaml.Gap`, `Yaml.plainFrom`, `Yaml.singleFrom`,
`Yaml.doubleFrom`.
-/
import TreeLint.Text.CharClass
import TreeLint.Yaml.Place

namespace TreeLint
namespace Yaml

/-- A scalar that was read, its characters in reverse, whether it ended after a line break, and
the place after it. -/
structure ScalarEnd where
  text : List Char
  brokeLine : Bool
  place : Place
deriving Repr

/-- White space inside a scalar whose effect is not settled: blanks in reverse, or line breaks, of
which the first may have been escaped; further ones are in reverse. -/
inductive Gap where
  | blanks (collected : List Char)
  | lines (first : Option Char) (further : List Char)
deriving Repr

namespace Gap

/-- No white space. -/
def none : Gap := .blanks []

/-- One more blank; after a line break blanks do not count. -/
def blank (c : Char) : Gap → Gap
  | .blanks cs => .blanks (c :: cs)
  | g => g

/-- One more line break; the blanks before the first do not count. -/
def lineBreak (c : Char) : Gap → Gap
  | .blanks _ => .lines (some c) []
  | .lines first further => .lines first (c :: further)

/-- Whether the gap goes over a line break. -/
def hasBreak : Gap → Bool
  | .blanks _ => false
  | .lines _ _ => true

/-- The characters the gap stands for, in reverse. -/
def settle : Gap → List Char
  | .blanks cs => cs
  | .lines (some '\n') [] => [' ']
  | .lines (some '\n') further => further
  | .lines first further => further ++ first.toList

end Gap

/-- Characters that end a plain scalar within brackets. -/
def isFlowMark (c : Char) : Bool :=
  c == ',' || c == '[' || c == ']' || c == '\x7b' || c == '\x7d'

/-- Reads a plain scalar, given what is read so far in reverse and the gap after it. `inWord` says
that no gap was met since the last character; `indent` is the least column of a further line. -/
def plainFrom (flow : Bool) (indent : Nat) : List Char → Gap → Bool → Mark → List Char →
    Option ScalarEnd
  | text, gap, _, m, [] => some ⟨text, gap.hasBreak, ⟨m, []⟩⟩
  | text, gap, inWord, m, c :: cs =>
    let stop := some ⟨text, gap.hasBreak, ⟨m, c :: cs⟩⟩
    if isBlank c then
      if gap.hasBreak && m.col < indent && c == '\t' then none
      else plainFrom flow indent text (gap.blank c) false (m.after c) cs
    else if isBreak c then plainFrom flow indent text (gap.lineBreak c) false (m.after c) cs
    else if !inWord && (c == '#' || (m.col == 0 && atDocumentMarker (c :: cs)) ||
        (gap.hasBreak && !flow && m.col < indent)) then stop
    else if flow && c == ':' && cs.head?.any (fun d => isFlowMark d || d == '?') then none
    else if c == ':' && atGap cs then stop
    else if flow && isFlowMark c then stop
    else plainFrom flow indent (c :: (gap.settle ++ text)) .none true (m.after c) cs

/-- Reads the rest of a single-quoted scalar, in which two apostrophes stand for one. -/
def singleFrom : List Char → Gap → Mark → List Char → Option ScalarEnd
  | _, _, _, [] => none
  | text, gap, m, c :: cs =>
    if m.col == 0 && atDocumentMarker (c :: cs) then none
    else if isBlank c then singleFrom text (gap.blank c) (m.after c) cs
    else if isBreak c then singleFrom text (gap.lineBreak c) (m.after c) cs
    else if c == '\'' then
      match cs with
      | '\'' :: cs => singleFrom ('\'' :: (gap.settle ++ text)) .none ((m.after c).after c) cs
      | cs => some ⟨gap.settle ++ text, false, ⟨m.after c, cs⟩⟩
    else singleFrom (c :: (gap.settle ++ text)) .none (m.after c) cs

/-- The character that stands for a one-letter escape. -/
def escapedChar? : Char → Option Char
  | '0' => some '\x00'
  | 'a' => some '\x07'
  | 'b' => some '\x08'
  | 't' => some '\t'
  | '\t' => some '\t'
  | 'n' => some '\n'
  | 'v' => some '\x0b'
  | 'f' => some '\x0c'
  | 'r' => some '\r'
  | 'e' => some '\x1b'
  | ' ' => some ' '
  | '"' => some '"'
  | '/' => some '/'
  | '\\' => some '\\'
  | 'N' => some '\u0085'
  | '_' => some '\u00a0'
  | 'L' => some '\u2028'
  | 'P' => some '\u2029'
  | _ => none

/-- How many hexadecimal digits follow an escape by code point. -/
def codeLength? : Char → Option Nat
  | 'x' => some 2
  | 'u' => some 4
  | 'U' => some 8
  | _ => none

/-- What the reader of a double-quoted scalar is within. -/
inductive DoubleMode where
  | text
  | escape
  | code (left : Nat) (value : Nat)
deriving Repr

/-- The character of a code point, if it is one. -/
def charOf? (n : Nat) : Option Char :=
  if n.isValidChar then some (Char.ofNat n) else none

/-- Reads the rest of a double-quoted scalar. -/
def doubleFrom : DoubleMode → List Char → Gap → Mark → List Char → Option ScalarEnd
  | _, _, _, _, [] => none
  | .text, text, gap, m, c :: cs =>
    if m.col == 0 && atDocumentMarker (c :: cs) then none
    else if isBlank c then doubleFrom .text text (gap.blank c) (m.after c) cs
    else if isBreak c then doubleFrom .text text (gap.lineBreak c) (m.after c) cs
    else if c == '"' then some ⟨gap.settle ++ text, false, ⟨m.after c, cs⟩⟩
    else if c == '\\' then doubleFrom .escape (gap.settle ++ text) .none (m.after c) cs
    else doubleFrom .text (c :: (gap.settle ++ text)) .none (m.after c) cs
  | .escape, text, gap, m, c :: cs =>
    if isBreak c then doubleFrom .text text (.lines none []) (m.after c) cs
    else match codeLength? c with
      | some n => doubleFrom (.code n 0) text gap (m.after c) cs
      | none =>
        match escapedChar? c with
        | some d => doubleFrom .text (d :: text) .none (m.after c) cs
        | none => none
  | .code left value, text, gap, m, c :: cs =>
    match CharClass.hexValue? c with
    | none => none
    | some d =>
      if left ≤ 1 then
        match charOf? (value * 16 + d) with
        | some x => doubleFrom .text (x :: text) .none (m.after c) cs
        | none => none
      else doubleFrom (.code (left - 1) (value * 16 + d)) text gap (m.after c) cs

end Yaml
end TreeLint
