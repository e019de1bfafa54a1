/-
# Tokens of a YAML text

The structure of a YAML text shows in its indentation, so the reader of tokens
keeps the columns of the open blocks and adds tokens where a block starts and
ends. That a scalar is a key is known only at the colon after it; a place where
a key may have started is remembered, one for each level of brackets, and the
tokens that start a key are put there when the colon comes.

Key definitions: `Yaml.Token`, `Yaml.Reader`, `Yaml.Reader.token?`,
`Yaml.tokens?`.
-/
import TreeLint.Yaml.Block
import TreeLint.Yaml.Tag

namespace TreeLint
namespace Yaml

/-- The smallest parts of a YAML text. -/
inductive Token where
  | directive (d : Directive)
  | documentStart
  | documentEnd
  | blockSequence
  | blockMapping
  | blockEnd
  | openBracket
  | closeBracket
  | openBrace
  | closeBrace
  | entry
  | comma
  | key
  | value
  | alias (name : String)
  | anchor (name : String)
  | tag (t : TagRef)
  | scalar (text : String) (plain : Bool)
deriving DecidableEq, Repr

/-- A place where a key may have started, and how many tokens there were before it. -/
structure KeyStart where
  required : Bool
  token : Nat
  mark : Mark
deriving Repr

/-- How many bytes a key may have at most, up to its colon. -/
def longestKey : Nat := 1024

/-- The reader of tokens: its place, the tokens so far, the latest first, their number, the columns
of the open blocks, whether a key may start here, and where a key may have started on each level of
brackets. Columns of blocks count from one; zero means that no block is open. -/
structure Reader where
  place : Place
  tokens : List Token := []
  count : Nat := 0
  blocks : List Nat := []
  keyAllowed : Bool := true
  keys : List (Option KeyStart) := [none]
deriving Repr

namespace Reader

/-- The column of the innermost block, from one on. -/
def indent (r : Reader) : Nat := r.blocks.headD 0

/-- Whether the reader is within brackets. -/
def inFlow (r : Reader) : Bool := r.keys.length > 1

/-- What is left of the text. -/
def rest (r : Reader) : List Char := r.place.rest

/-- Puts a token where a number of tokens come before it. -/
def insert (r : Reader) (position : Nat) (t : Token) : Reader :=
  { r with tokens := r.tokens.insertIdx (r.count - position) t, count := r.count + 1 }

/-- Adds a token. -/
def emit (r : Reader) (t : Token) : Reader :=
  { r with tokens := t :: r.tokens, count := r.count + 1 }

/-- The reader a number of characters on. -/
def skip (r : Reader) (n : Nat) : Reader := { r with place := r.place.skip n }

/-- Says whether a key may start next. -/
def allow (r : Reader) (b : Bool) : Reader := { r with keyAllowed := b }

/-- Skips blanks, comments, line breaks and a byte order mark at the start of a line; outside
brackets a key may start on a new line, and where a key may start a tab is no blank. -/
def gapFrom (flow : Bool) : Bool → Bool → Mark → List Char → Bool × Place
  | allowed, _, m, [] => (allowed, ⟨m, []⟩)
  | allowed, comment, m, c :: cs =>
    if isBreak c then gapFrom flow (allowed || !flow) false (m.after c) cs
    else if comment then gapFrom flow allowed true (m.after c) cs
    else if c == ' ' || (c == '\t' && (flow || !allowed)) || (c == '\ufeff' && m.col == 0) then
      gapFrom flow allowed false (m.after c) cs
    else if c == '#' then gapFrom flow allowed true (m.after c) cs
    else (allowed, ⟨m, c :: cs⟩)

/-- The reader at the next token. -/
def skipGap (r : Reader) : Reader :=
  let (allowed, place) := gapFrom r.inFlow r.keyAllowed false r.place.mark r.rest
  { r with place, keyAllowed := allowed }

/-- Whether a key start is on an earlier line or too far back. -/
def isStale (r : Reader) (k : KeyStart) : Bool :=
  k.mark.line < r.place.mark.line || k.mark.byte + longestKey < r.place.mark.byte

/-- Forgets stale key starts; one that had to be a key is an error. -/
def dropStale? (r : Reader) : Option Reader := do
  let keys ← r.keys.mapM fun
    | some k =>
      if r.isStale k then (if k.required then none else some none) else some (some k)
    | none => some none
  return { r with keys }

/-- Closes the blocks that are deeper than a column. -/
def closeBlocks (r : Reader) (col : Nat) : Reader :=
  if r.inFlow then r
  else
    let closed := r.blocks.takeWhile fun b => col < b
    closed.foldl (fun r _ => r.emit .blockEnd) { r with blocks := r.blocks.drop closed.length }

/-- Opens a block at a column, with its token at a position, unless one is open there. -/
def openBlock (r : Reader) (col : Nat) (position : Nat) (t : Token) : Reader :=
  if r.inFlow || col < r.indent then r
  else { r.insert position t with blocks := (col + 1) :: r.blocks }

/-- Forgets the key start on this level; one that had to be a key is an error. -/
def dropKey? (r : Reader) : Option Reader :=
  match r.keys with
  | some k :: keys => if k.required then none else some { r with keys := none :: keys }
  | _ => some r

/-- Remembers that a key may start here. -/
def saveKey? (r : Reader) : Option Reader :=
  if r.keyAllowed then do
    let r ← r.dropKey?
    let key : KeyStart :=
      ⟨!r.inFlow && r.indent == r.place.mark.col + 1, r.count, r.place.mark⟩
    return { r with keys := some key :: r.keys.tail }
  else some r

/-- A document marker. -/
def documentMarker? (r : Reader) (t : Token) : Option Reader := do
  let r ← (r.closeBlocks 0).dropKey?
  return ((r.emit t).skip 3).allow false

/-- A directive and the rest of its line. -/
def directiveLine? (r : Reader) : Option Reader := do
  let r ← (r.closeBlocks 0).dropKey?
  let (d, rest) ← directive? (r.rest.drop 1)
  let place ← (r.place.skipTo rest).endLine?
  return ({ r with place }.emit (.directive d)).allow false

/-- An opening bracket or brace. -/
def openFlow? (r : Reader) (t : Token) : Option Reader := do
  let r ← r.saveKey?
  return (({ r with keys := none :: r.keys }.emit t).skip 1).allow true

/-- A closing bracket or brace. -/
def closeFlow? (r : Reader) (t : Token) : Option Reader := do
  let r ← r.dropKey?
  let keys := if r.inFlow then r.keys.tail else r.keys
  return (({ r with keys }.emit t).skip 1).allow false

/-- The dash of a sequence. -/
def entry? (r : Reader) : Option Reader := do
  if !r.inFlow && !r.keyAllowed then none
  let r ← (r.openBlock r.place.mark.col r.count .blockSequence).dropKey?
  return ((r.emit .entry).skip 1).allow true

/-- The mark of a key that is written with a question mark. -/
def explicitKey? (r : Reader) : Option Reader := do
  if !r.inFlow && !r.keyAllowed then none
  let r ← (r.openBlock r.place.mark.col r.count .blockMapping).dropKey?
  return ((r.emit .key).skip 1).allow (!r.inFlow)

/-- A colon: what may have been a key is one, and its token goes where it started. -/
def value? (r : Reader) : Option Reader :=
  match r.keys with
  | some k :: keys =>
    let r := { r with keys := none :: keys }.insert k.token .key
    let r := r.openBlock k.mark.col k.token .blockMapping
    some (((r.emit .value).skip 1).allow false)
  | _ =>
    if !r.inFlow && !r.keyAllowed then none
    else
      let r := r.openBlock r.place.mark.col r.count .blockMapping
      some (((r.emit .value).skip 1).allow (!r.inFlow))

/-- Whether an anchor's name may end here. -/
def atAnchorEnd (cs : List Char) : Bool :=
  atGap cs || cs.head?.any fun c => "?:,]\x7d%@`".toList.contains c

/-- An anchor or an alias. -/
def anchor? (r : Reader) (t : String → Token) : Option Reader := do
  let r ← r.saveKey?
  let name := (r.rest.drop 1).takeWhile isNameChar
  if name.isEmpty || !atAnchorEnd (r.rest.drop (1 + name.length)) then none
  return ((r.emit (t (String.ofList name))).skip (1 + name.length)).allow false

/-- A tag. -/
def tag? (r : Reader) : Option Reader := do
  let r ← r.saveKey?
  let (t, rest) ← tagRef? r.rest
  if atGap rest || (r.inFlow && rest.head? == some ',') then
    return ({ r with place := r.place.skipTo rest }.emit (.tag t)).allow false
  else none

/-- Adds a scalar and goes on after it; a key may start there as the flag says. -/
def scalar (r : Reader) (plain : Bool) (e : ScalarEnd) (allowed : Bool) : Reader :=
  ({ r with place := e.place }.emit (.scalar (String.ofList e.text.reverse) plain)).allow allowed

/-- A block scalar. -/
def block? (r : Reader) (literal : Bool) : Option Reader := do
  let r ← r.dropKey?
  let (header, n) ← blockHeader? (r.rest.drop 1)
  let place ← (r.place.skip (1 + n)).endLine?
  let e ← blockScalar? literal header r.indent place
  return r.scalar false e true

/-- A quoted scalar. -/
def quoted? (r : Reader) (double : Bool) : Option Reader := do
  let r ← r.saveKey?
  let x := r.place.skip 1
  let e ← if double then doubleFrom .text [] .none x.mark x.rest
    else singleFrom [] .none x.mark x.rest
  return r.scalar false e false

/-- A plain scalar; a key may start after it, if it ended with a line. -/
def plain? (r : Reader) : Option Reader := do
  let r ← r.saveKey?
  let e ← plainFrom r.inFlow r.indent [] .none true r.place.mark r.rest
  return r.scalar true e e.brokeLine

/-- Whether a plain scalar may start with a character, given what follows it. -/
def startsPlain (flow : Bool) (c : Char) (cs : List Char) : Bool :=
  !"-?:,[]\x7b\x7d#&*!|>'\"%@`".toList.contains c && !atGap [c] ||
    (c == '-' && !cs.head?.any isBlank) ||
    (!flow && (c == '?' || c == ':') && !atGap cs)

/-- Reads the token that starts with a character. -/
def token? (r : Reader) (c : Char) (cs : List Char) : Option Reader :=
  if r.place.mark.col == 0 && c == '%' then r.directiveLine?
  else if r.place.mark.col == 0 && atDocumentMarker (c :: cs) then
    r.documentMarker? (if c == '-' then .documentStart else .documentEnd)
  else if c == '[' then r.openFlow? .openBracket
  else if c == '\x7b' then r.openFlow? .openBrace
  else if c == ']' then r.closeFlow? .closeBracket
  else if c == '\x7d' then r.closeFlow? .closeBrace
  else if c == ',' then (r.dropKey?).map fun r => ((r.emit .comma).skip 1).allow true
  else if c == '-' && atGap cs then r.entry?
  else if c == '?' && (r.inFlow || atGap cs) then r.explicitKey?
  else if c == ':' && (r.inFlow || atGap cs) then r.value?
  else if c == '*' then r.anchor? .alias
  else if c == '&' then r.anchor? .anchor
  else if c == '!' then r.tag?
  else if c == '|' && !r.inFlow then r.block? true
  else if c == '>' && !r.inFlow then r.block? false
  else if c == '\'' then r.quoted? false
  else if c == '"' then r.quoted? true
  else if startsPlain r.inFlow c cs then r.plain?
  else none

/-- Reads tokens to the end of the text, up to a number of them. -/
def run? : Nat → Reader → Option (List Token)
  | 0, _ => none
  | fuel + 1, r => do
    let r ← r.skipGap.dropStale?
    match r.rest with
    | [] => ((r.closeBlocks 0).dropKey?).map (·.tokens.reverse)
    | c :: cs => ((r.closeBlocks (r.place.mark.col + 1)).token? c cs).bind (run? fuel)

end Reader

/-- The tokens of a YAML text. -/
def tokens? (s : String) : Option (List Token) :=
  if s.toList.all isAllowed then
    let cs := normalizeBreaks s.toList
    Reader.run? (cs.length + 2) { place := ⟨{}, cs⟩ }
  else none

end Yaml
end TreeLint
