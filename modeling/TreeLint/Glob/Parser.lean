/-
# Reading glob patterns

`?` is any byte and `*` any run of bytes. `**` is special as a whole component:
at the start, in the middle or at the end of a path; elsewhere it is two runs.
Braces hold alternatives and may be nested, brackets a class of characters,
negated by `!` or `^`. A backslash makes the next character stand for itself,
except in a class.

Key definitions: `Glob.PatternError`, `Glob.parseFrom`, `Glob.parse`,
`Glob.Matcher`, `Glob.Matcher.ofString`, `Glob.Matcher.isMatch`,
`Glob.depthError?`.
-/
import TreeLint.Glob.Nesting

namespace TreeLint
namespace Glob

/-- Why a pattern cannot be read. -/
inductive PatternError where
  | unclosedClass
  | invalidRange (low high : Char)
  | unopenedAlternates
  | unclosedAlternates
  | danglingEscape
deriving DecidableEq, Repr

/-- The text of an error. -/
def PatternError.message : PatternError → String
  | .unclosedClass => "unclosed character class; missing ']'"
  | .invalidRange low high =>
    "invalid range; '" ++ String.ofList [low] ++ "' > '" ++ String.ofList [high] ++ "'"
  | .unopenedAlternates =>
    "unopened alternate group; missing '\x7b' (maybe escape '\x7d' with '[\x7d]'?)"
  | .unclosedAlternates =>
    "unclosed alternate group; missing '\x7d' (maybe escape '\x7b' with '[\x7b]'?)"
  | .danglingEscape => "dangling '\\'"

/-- A group that is open: the branches before the current one, and the parts of the current one,
both in reverse. The outermost group is the pattern itself. -/
structure Group where
  finished : List (List Token) := []
  current : List Token := []
deriving Repr

/-- A class that is being read. -/
structure ClassState where
  negated : Bool
  ranges : List (Char × Char)
  first : Bool
  inRange : Bool
deriving Repr

/-- What the reader is within: a pattern, the first character of a class, or the rest of it. -/
inductive Mode where
  | pattern
  | classStart
  | inClass (s : ClassState)
deriving Repr

namespace Group

/-- The group with a part added to its current branch. -/
def push (g : Group) (t : Token) : Group := { g with current := t :: g.current }

/-- The group with the last part of its current branch replaced. -/
def replaceLast (g : Group) (f : Option Token → Token) : Group :=
  { g with current := f g.current.head? :: g.current.tail }

end Group

/-- One character of a class: the class is closed with its part, or goes on. -/
def classStep (s : ClassState) (c : Char) : Except PatternError (Token ⊕ ClassState) :=
  if c = ']' ∧ ¬ s.first then
    let ranges := if s.inRange then ('-', '-') :: s.ranges else s.ranges
    .ok (.inl (.set s.negated ranges.reverse))
  else if c = '-' ∧ ¬ s.first ∧ ¬ s.inRange then
    .ok (.inr { s with first := false, inRange := true })
  else if s.inRange then
    match s.ranges with
    | (low, _) :: earlier =>
      if c < low then .error (.invalidRange low c)
      else .ok (.inr { s with ranges := (low, c) :: earlier, first := false, inRange := false })
    | [] => .ok (.inr { s with ranges := [(c, c)], first := false, inRange := false })
  else .ok (.inr { s with ranges := (c, c) :: s.ranges, first := false })

/-- The part of a `**` that ends a path component or stands before a slash, after a part: it
takes the slash before it. -/
def recursiveAfter (atEnd : Bool) : Option Token → Token
  | some .recursiveStart => .recursiveStart
  | some .recursiveEnd => .recursiveEnd
  | _ => if atEnd then .recursiveEnd else .recursiveMiddle

/-- Whether a path component starts after a character: after a slash and, within a group, also
after a comma or a brace that stands for itself. -/
def startsComponent (outer : List Group) (before : Option Char) : Bool :=
  before == some '/' || (!outer.isEmpty && (before == some ',' || before == some '\x7b'))

/-- Reads the rest of a pattern, given the innermost open group, the groups around it, the
character before, and what the reader is within. -/
def parseFrom : Group → List Group → Option Char → Mode → List Char →
    Except PatternError (List Token)
  | g, outer, _, .pattern, [] =>
    match outer with
    | [] => .ok g.current.reverse
    | _ :: _ => .error .unclosedAlternates
  | _, _, _, _, [] => .error .unclosedClass
  | g, outer, _, .classStart, c :: cs =>
    if c = '!' ∨ c = '^' then parseFrom g outer (some c) (.inClass ⟨true, [], true, false⟩) cs
    else
      match classStep ⟨false, [], true, false⟩ c with
      | .error e => .error e
      | .ok (.inl t) => parseFrom (g.push t) outer (some c) .pattern cs
      | .ok (.inr s) => parseFrom g outer (some c) (.inClass s) cs
  | g, outer, _, .inClass s, c :: cs =>
    match classStep s c with
    | .error e => .error e
    | .ok (.inl t) => parseFrom (g.push t) outer (some c) .pattern cs
    | .ok (.inr s) => parseFrom g outer (some c) (.inClass s) cs
  | g, outer, before, .pattern, c :: cs =>
    match c with
    | '?' => parseFrom (g.push .any) outer (some c) .pattern cs
    | '[' => parseFrom g outer (some c) .classStart cs
    | '\x7b' => parseFrom {} (g :: outer) (some c) .pattern cs
    | '\x7d' =>
      match outer with
      | [] => .error .unopenedAlternates
      | o :: outer =>
        let branches := (g.current.reverse :: g.finished).reverse
        parseFrom (o.push (.alternates branches)) outer (some c) .pattern cs
    | ',' =>
      if outer.isEmpty then parseFrom (g.push (.literal ',')) outer (some c) .pattern cs
      else parseFrom ⟨g.current.reverse :: g.finished, []⟩ outer (some c) .pattern cs
    | '\\' =>
      match cs with
      | [] => .error .danglingEscape
      | e :: cs => parseFrom (g.push (.literal e)) outer (some e) .pattern cs
    | '*' =>
      match cs with
      | '*' :: '/' :: rest =>
        if g.current.isEmpty then
          parseFrom (g.push .recursiveStart) outer (some '/') .pattern rest
        else if startsComponent outer before then
          parseFrom (g.replaceLast (recursiveAfter false)) outer (some '/') .pattern rest
        else parseFrom (((g.push .run).push .run).push (.literal '/')) outer (some '/') .pattern rest
      | '*' :: rest =>
        let closes := rest.isEmpty ||
          (!outer.isEmpty && rest.head?.any fun x => x == ',' || x == '\x7d')
        if g.current.isEmpty then
          if rest.isEmpty then parseFrom (g.push .recursiveStart) outer (some '*') .pattern rest
          else parseFrom ((g.push .run).push .run) outer (some '*') .pattern rest
        else if startsComponent outer before && closes then
          parseFrom (g.replaceLast (recursiveAfter true)) outer (some '*') .pattern rest
        else parseFrom ((g.push .run).push .run) outer (some '*') .pattern rest
      | cs => parseFrom (g.push .run) outer (some c) .pattern cs
    | c => parseFrom (g.push (.literal c)) outer (some c) .pattern cs

/-- The parts of a pattern. -/
def parse (pattern : String) : Except PatternError (List Token) :=
  parseFrom {} [] none .pattern pattern.toList

/-- The characters of parts that are all literal. -/
def literals? : List Token → Option (List Char)
  | [] => some []
  | .literal c :: ts => (literals? ts).map (c :: ·)
  | _ => none

/-- How a path is decided: by its file name alone, by the extension of its file name alone, by its
beginning or end, by the extension and then the pattern, or by the pattern. -/
inductive Decision where
  | fileName
  | extension
  | affix
  | extensionFirst
  | general
deriving DecidableEq, Repr

/-- Whether the pattern asks for one file name, in any directory. -/
def asksFileName : List Token → Bool
  | .recursiveStart :: ts => (literals? ts).any fun cs => !cs.isEmpty && !cs.contains '/'
  | _ => false

/-- Whether the pattern asks for one file extension. -/
def asksExtension : List Token → Bool
  | .recursiveStart :: .run :: .literal '.' :: ts
  | .run :: .literal '.' :: ts =>
    (literals? ts).any fun cs => !cs.contains '.' && !cs.contains '/'
  | _ => false

/-- Whether the pattern is a text, or a text and then anything. -/
def isFront (ts : List Token) : Bool :=
  match ts.getLast? with
  | some .run => (literals? ts.dropLast).any fun cs => !cs.isEmpty
  | some .recursiveEnd => (literals? ts.dropLast).isSome
  | _ => (literals? ts).any fun cs => !cs.isEmpty

/-- The text at the end of a path that the pattern asks for, after anything. -/
def back? : List Token → Option (List Char)
  | .recursiveStart :: .run :: ts => literals? ts
  | .recursiveStart :: ts => (literals? ts).map ('/' :: ·)
  | .run :: ts => literals? ts
  | ts => literals? ts

/-- Whether the pattern is anything and then a text that is more than a slash. -/
def isBack (ts : List Token) : Bool := (back? ts).any fun cs => !cs.isEmpty && cs != ['/']

/-- Whether the pattern ends in a literal extension. -/
def endsInExtension (ts : List Token) : Bool :=
  let tail := ts.reverse.takeWhile fun
    | .literal c => c != '.' && c != '/'
    | _ => false
  match (ts.reverse.drop tail.length).head? with
  | some (.literal '.') => true
  | _ => false

/-- How the pattern decides a path. -/
def decisionOf (ts : List Token) : Decision :=
  if asksFileName ts then .fileName
  else if asksExtension ts then .extension
  else if isFront ts || isBack ts then .affix
  else if endsInExtension ts then .extensionFirst
  else .general

/-- Whether a path leads to the directory above another, and so to no file. -/
def leadsUp (path : String) : Bool := path.toList.reverse.takeWhile (· != '/') == ['.', '.']

/-- A pattern and what it is compiled to. -/
structure Matcher where
  tokens : List Token
  decision : Decision
  expr : Expr
deriving Repr

namespace Matcher

/-- Compiles a pattern. -/
def ofString (pattern : String) : Except PatternError Matcher :=
  match parse pattern with
  | .error e => .error e
  | .ok ts => .ok ⟨ts, decisionOf ts, Expr.ofTokens ts⟩

/-- Whether a path without a file name cannot match. -/
def needsFileName (m : Matcher) : Bool :=
  match m.decision with
  | .fileName | .extension | .extensionFirst => true
  | .affix | .general => false

/-- Whether the pattern matches a path. -/
def isMatch (m : Matcher) (path : String) : Bool :=
  !(m.needsFileName && leadsUp path) && m.expr.accepts path.toUTF8.data

/-- Whether the pattern is nested too deep for an expression. -/
def isTooDeep (m : Matcher) : Bool := depthLimit < depth m.tokens

end Matcher

/-- The pattern of a list that is nested too deep: the first of those that are decided by the
extension and then the pattern, else the first that is decided by the pattern, by its number among
those. -/
inductive DepthError where
  | extensionFirst (expression : String)
  | general (number : Nat)
deriving DecidableEq, Repr

/-- The text of an error. -/
def DepthError.message : DepthError → String
  | .extensionFirst e => "error parsing glob '" ++ e ++ "': error parsing pattern 0"
  | .general n => "error parsing pattern " ++ toString n

/-- The first pattern of a list that is nested too deep. -/
def depthError? (ms : List Matcher) : Option DepthError :=
  let decided (d : Decision) := ms.filter (·.decision = d)
  match (decided .extensionFirst).find? (·.isTooDeep) with
  | some m => some (.extensionFirst (expression m.tokens))
  | none => ((decided .general).findIdx? (·.isTooDeep)).map .general

end Glob
end TreeLint
