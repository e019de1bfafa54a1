/-
# Tokens of a JSON text

The text is read one character at a time by a small machine: between tokens, in
a bare word (a number or a literal), in a string, after a backslash, or within
the four digits of a code-unit escape. A string is collected as code points, and
surrogates that came from two escapes in a row are joined at its end.

Key definitions: `Json.isNumber`, `Json.joinUnits`, `Json.LexState`,
`Json.lexStep`, `Json.tokens`.
-/
import TreeLint.Json.Basic
import TreeLint.Text.CharClass

namespace TreeLint
namespace Json

/-- The digits at the front, and the rest. -/
def digits (cs : List Char) : List Char × List Char :=
  (cs.takeWhile CharClass.isAsciiDigit, cs.dropWhile CharClass.isAsciiDigit)

/-- Whether the rest of a number is an exponent or nothing. -/
def isExponent : List Char → Bool
  | [] => true
  | e :: rest =>
    let unsigned := match rest with
      | '+' :: r => r
      | '-' :: r => r
      | r => r
    (e == 'e' || e == 'E') && !unsigned.isEmpty && unsigned.all CharClass.isAsciiDigit

/-- Whether the rest of a number is a fraction, an exponent, both or nothing. -/
def isFraction : List Char → Bool
  | '.' :: rest =>
    let (ds, tail) := digits rest
    !ds.isEmpty && isExponent tail
  | rest => isExponent rest

/-- Whether the characters are a number without sign; a leading zero stands alone. -/
def isUnsignedNumber (cs : List Char) : Bool :=
  match digits cs with
  | (['0'], rest) => isFraction rest
  | ('0' :: _, _) => false
  | ([], _) => false
  | (_, rest) => isFraction rest

/-- Whether the characters are a JSON number. -/
def isNumber : List Char → Bool
  | '-' :: rest => isUnsignedNumber rest
  | cs => isUnsignedNumber cs

/-- The characters of a list of code points, with each high surrogate joined to the low one that
must follow it; `none` if a surrogate stands alone. -/
def joinUnits : List Nat → Option (List Char)
  | [] => some []
  | u :: rest =>
    if 0xD800 ≤ u ∧ u ≤ 0xDBFF then
      match rest with
      | v :: rest =>
        if 0xDC00 ≤ v ∧ v ≤ 0xDFFF then
          (joinUnits rest).map (Char.ofNat (0x10000 + (u - 0xD800) * 0x400 + (v - 0xDC00)) :: ·)
        else none
      | [] => none
    else if 0xDC00 ≤ u ∧ u ≤ 0xDFFF then none
    else (joinUnits rest).map (Char.ofNat u :: ·)

/-- Where the reader of tokens stands; collected characters are in reverse. -/
inductive LexState where
  | idle
  | word (collected : List Char)
  | text (units : List Nat)
  | escape (units : List Nat)
  | code (units : List Nat) (left : Nat) (value : Nat)
deriving Repr

/-- The token of a bare word. -/
def wordToken? (cs : List Char) : Option Token :=
  if cs == ['t', 'r', 'u', 'e'] then some (.bool true)
  else if cs == ['f', 'a', 'l', 's', 'e'] then some (.bool false)
  else if cs == ['n', 'u', 'l', 'l'] then some .null
  else if isNumber cs then some (.num (String.ofList cs))
  else none

/-- The character that stands for a simple escape. -/
def simpleEscape? : Char → Option Nat
  | '"' => some 0x22
  | '\\' => some 0x5C
  | '/' => some 0x2F
  | 'b' => some 0x08
  | 'f' => some 0x0C
  | 'n' => some 0x0A
  | 'r' => some 0x0D
  | 't' => some 0x09
  | _ => none

/-- A punctuation mark as a token. -/
def punctuation? : Char → Option Token
  | '\x7b' => some .openBrace
  | '\x7d' => some .closeBrace
  | '[' => some .openBracket
  | ']' => some .closeBracket
  | ':' => some .colon
  | ',' => some .comma
  | _ => none

/-- White space between tokens. -/
def isGap (c : Char) : Bool := c == ' ' || c == '\t' || c == '\n' || c == '\r'

/-- A character read between tokens. -/
def lexIdle (c : Char) : List Token × LexState :=
  match punctuation? c with
  | some t => ([t], .idle)
  | none =>
    if isGap c then ([], .idle)
    else if c == '"' then ([], .text [])
    else ([], .word [c])

/-- One character of a JSON text: the tokens it completes, and where the reader stands then. -/
def lexStep : LexState → Char → Option (List Token × LexState)
  | .idle, c => some (lexIdle c)
  | .word w, c =>
    if (punctuation? c).isSome || isGap c || c == '"' then
      (wordToken? w.reverse).map fun t => (t :: (lexIdle c).1, (lexIdle c).2)
    else some ([], .word (c :: w))
  | .text us, c =>
    if c == '"' then some ([.str ((joinUnits us.reverse).map String.ofList)], .idle)
    else if c == '\\' then some ([], .escape us)
    else if c.toNat < 0x20 then none
    else some ([], .text (c.toNat :: us))
  | .escape us, c =>
    if c == 'u' then some ([], .code us 4 0)
    else (simpleEscape? c).map fun u => ([], .text (u :: us))
  | .code us left value, c =>
    (CharClass.hexValue? c).map fun d =>
      if left ≤ 1 then ([], .text ((value * 16 + d) :: us)) else ([], .code us (left - 1) (value * 16 + d))

/-- The tokens of the rest of a text, from where the reader stands, up to the first place that
starts none; the flag says that there is no such place. -/
def lex : LexState → List Char → List Token × Bool
  | .idle, [] => ([], true)
  | .word w, [] =>
    match wordToken? w.reverse with
    | some t => ([t], true)
    | none => ([], false)
  | _, [] => ([], false)
  | s, c :: cs =>
    match lexStep s c with
    | none => ([], false)
    | some (ts, s) => (ts ++ (lex s cs).1, (lex s cs).2)

/-- The tokens of a JSON text, and whether they are all of it. -/
def tokens (cs : List Char) : List Token × Bool := lex .idle cs

end Json
end TreeLint
