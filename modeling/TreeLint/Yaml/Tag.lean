/-
# Tags and directives of a YAML text

A tag is written out between angle brackets, or as a suffix after a handle that
stands for its beginning. A directive before a document states the version of
the format or what a handle stands for. Any octet of a tag may be written as a
percent sign and two hexadecimal digits, as long as octets so written form whole
characters; a tag ends before its first zero octet.

Key definitions: `Yaml.Octets`, `Yaml.uri?`, `Yaml.TagRef`, `Yaml.tagRef?`,
`Yaml.Directive`, `Yaml.directive?`, `Yaml.Handles`.
-/
import TreeLint.Text.Decimal
import TreeLint.Yaml.Place

namespace TreeLint
namespace Yaml

/-- The octets of a tag. -/
abbrev Octets := List UInt8

/-- The octets of ASCII characters. -/
def octetsOf (cs : List Char) : Octets := cs.map fun c => c.toNat.toUInt8

/-- A character of a handle, of a directive's name or of an anchor. -/
def isNameChar (c : Char) : Bool :=
  CharClass.isAsciiLetter c || CharClass.isAsciiDigit c || c == '_' || c == '-'

/-- A character of a tag; some may stand only where the tag is delimited by other means than
those characters. -/
def isUriChar (delimited : Bool) (c : Char) : Bool :=
  isNameChar c || ";/?:@&=+$.%!~*'()".toList.contains c ||
    (delimited && (c == ',' || c == '[' || c == ']'))

/-- How many octets follow the first octet of a character. -/
def octetsAfter? (b : UInt8) : Option Nat :=
  if b < 0x80 then some 0
  else if b < 0xC0 then none
  else if b < 0xE0 then some 1
  else if b < 0xF0 then some 2
  else if b < 0xF8 then some 3
  else none

/-- Whether an octet goes on a character. -/
def isContinuation (b : UInt8) : Bool := 0x80 ≤ b && b < 0xC0

/-- What the reader of a tag is within: the tag, with some octets still to come that go on an
escaped character, or an escape, of which the first digit may be read. -/
inductive UriState where
  | text (toCome : Nat)
  | escape (toCome : Nat)
  | digit (toCome : Nat) (high : Nat)
deriving Repr

/-- How many octets are to come after an escaped octet, if it may stand here. -/
def octetsToCome? (toCome : Nat) (b : UInt8) : Option Nat :=
  match toCome with
  | 0 => octetsAfter? b
  | n + 1 => if isContinuation b then some n else none

/-- Reads a tag to its end: its octets, the given ones first, and what is left of the text. -/
def uriFrom (delimited : Bool) : UriState → Octets → List Char → Option (Octets × List Char)
  | .text 0, read, [] => some (read, [])
  | _, _, [] => none
  | .text 0, read, c :: cs =>
    if c == '%' then uriFrom delimited (.escape 0) read cs
    else if isUriChar delimited c then
      uriFrom delimited (.text 0) (read ++ [c.toNat.toUInt8]) cs
    else some (read, c :: cs)
  | .text (n + 1), read, c :: cs =>
    if c == '%' then uriFrom delimited (.escape (n + 1)) read cs else none
  | .escape n, read, c :: cs =>
    match CharClass.hexValue? c with
    | some h => uriFrom delimited (.digit n h) read cs
    | none => none
  | .digit n h, read, c :: cs =>
    match CharClass.hexValue? c with
    | some l =>
      let b := (h * 16 + l).toUInt8
      match octetsToCome? n b with
      | some n => uriFrom delimited (.text n) (read ++ [b]) cs
      | none => none
    | none => none

/-- A tag without what comes after its first zero octet. -/
def upToZero (octets : Octets) : Octets := octets.takeWhile (· != 0)

/-- Reads a tag, or the rest of one of which a beginning is read, and what is left of the text. -/
def uri? (delimited : Bool) (read : List Char) (cs : List Char) : Option (Octets × List Char) :=
  (uriFrom delimited (.text 0) (octetsOf read) cs).map fun (octets, rest) =>
    (upToZero octets, rest)

/-- Reads a tag that is not empty, and what is left of the text. -/
def someUri? (delimited : Bool) (cs : List Char) : Option (Octets × List Char) :=
  if cs.head?.any (isUriChar delimited) then uri? delimited [] cs else none

/-- A tag as it is written. -/
inductive TagRef where
  | whole (octets : Octets)
  | shorthand (handle : String) (suffix : Octets)
deriving DecidableEq, Repr

/-- The tag that leaves the choice to the reader. -/
def openTag : Octets := octetsOf ['!']

/-- The tag that a text starts with, and what is left of the text. -/
def tagRef? : List Char → Option (TagRef × List Char)
  | '!' :: '<' :: cs =>
    match someUri? true cs with
    | some (octets, '>' :: rest) => some (.whole octets, rest)
    | _ => none
  | '!' :: cs =>
    let name := cs.takeWhile isNameChar
    match cs.drop name.length with
    | '!' :: cs =>
      (someUri? false cs).map fun (suffix, rest) =>
        (.shorthand (String.ofList (['!'] ++ name ++ ['!'])) suffix, rest)
    | cs =>
      (uri? false name cs).map fun (suffix, rest) =>
        (if suffix.isEmpty then .whole openTag else .shorthand "!" suffix, rest)
  | _ => none

/-- A directive: the version of the format, or what a handle stands for. -/
inductive Directive where
  | version (major minor : Nat)
  | shorthand (handle : String) (beginning : Octets)
deriving DecidableEq, Repr

/-- How many digits a number of a version may have. -/
def longestNumber : Nat := 9

/-- A number of a version, and what is left of the text. -/
def number? (cs : List Char) : Option (Nat × List Char) :=
  let ds := cs.takeWhile CharClass.isAsciiDigit
  if ds.isEmpty || longestNumber < ds.length then none
  else some (Decimal.value ds, cs.drop ds.length)

/-- A version, and what is left of the text. -/
def version? (cs : List Char) : Option (Directive × List Char) :=
  match number? (cs.dropWhile isBlank) with
  | some (major, '.' :: cs) => (number? cs).map fun (minor, rest) => (.version major minor, rest)
  | _ => none

/-- A handle with what it stands for, and what is left of the text. -/
def shorthand? (cs : List Char) : Option (Directive × List Char) := do
  let cs ← match cs.dropWhile isBlank with
    | '!' :: cs => some cs
    | _ => none
  let name := cs.takeWhile isNameChar
  let (handle, cs) ← match cs.drop name.length with
    | '!' :: cs => some (['!'] ++ name ++ ['!'], cs)
    | cs => if name.isEmpty then some (['!'], cs) else none
  if !cs.head?.any isBlank then none
  let (beginning, rest) ← someUri? true (cs.dropWhile isBlank)
  if atGap rest then return (.shorthand (String.ofList handle) beginning, rest) else none

/-- The directive whose name a text starts with, and what is left of the text. -/
def directive? (cs : List Char) : Option (Directive × List Char) :=
  let name := cs.takeWhile isNameChar
  let rest := cs.drop name.length
  if !atGap rest then none
  else if name == "YAML".toList then version? rest
  else if name == "TAG".toList then shorthand? rest
  else none

/-- What handles stand for, the first entry of a handle first. -/
abbrev Handles := List (String × Octets)

/-- The handles that every document has. -/
def defaultHandles : Handles :=
  [("!", openTag), ("!!", octetsOf "tag:yaml.org,2002:".toList)]

/-- The tag that is written, if its handle is known. -/
def TagRef.resolve? (handles : Handles) : TagRef → Option Octets
  | .whole octets => some octets
  | .shorthand handle suffix => (handles.lookup handle).map (· ++ suffix)

/-- The versions that are read. -/
def isKnownVersion (major minor : Nat) : Bool := major == 1 && (minor == 1 || minor == 2)

/-- The handles that the directives before a document give it. The version may be stated once, and
so may each handle. -/
def handlesOf? (versioned : Bool) (handles : Handles) : List Directive → Option Handles
  | [] => some (handles ++ defaultHandles)
  | .version major minor :: ds =>
    if versioned || !isKnownVersion major minor then none else handlesOf? true handles ds
  | .shorthand handle beginning :: ds =>
    if (handles.lookup handle).isSome then none
    else handlesOf? versioned (handles ++ [(handle, beginning)]) ds

end Yaml
end TreeLint
