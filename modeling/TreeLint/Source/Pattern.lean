/-
# The patterns of the scanned language

Object and routine headers, properties, attributes, the keywords of blocks and
variable sections, calls, type specifications and named arguments. Keywords are
recognised in any case by simple folding. Where a pattern has a part that may be
absent, the part is taken whenever it is there.

Key definitions: `Source.objectHeader`, `Source.routineHeader`,
`Source.property`, `Source.blockToken`, `Source.callHead`, `Source.typeSpec?`,
`Source.isIdentifier`, `Source.namedArgument?`.
-/
import TreeLint.Text.Cursor

namespace TreeLint
namespace Source

/-- The keywords that start an object; where one starts another, the longer comes first. -/
def objectKeywords : List String := [
  "tableextension", "pageextension", "enumextension", "permissionset", "table", "page",
  "codeunit", "report", "query", "xmlport", "enum", "interface"]

/-- The parts of an object header: the keyword, the name, and the name after `extends`. -/
structure ObjectHeader where
  keyword : Extent
  name : Extent
  base : Option Extent
deriving Repr

/-- The place after an object number and the blanks behind it, or the same place without one. -/
def skipNumber (c : Cursor) : Cursor :=
  match (c.some? fun x => CharClass.isDigit x.char).bind Cursor.blanks? with
  | some d => d
  | none => c

/-- The name after `extends`. -/
def baseName? (c : Cursor) : Option (Extent × Cursor) := do
  let c ← c.blanks?
  let c ← c.word? "extends".toList
  let c ← c.blanks?
  c.name? CharClass.isFoldedLetter

/-- An object header: keyword, an optional number, name, and an optional `extends` name. -/
def objectHeader : Pattern ObjectHeader := fun c =>
  if c.atWordEdge then
    objectKeywords.findSome? fun w => do
      let afterWord ← c.word? w.toList
      let d ← afterWord.blanks?
      let (name, d) ← (skipNumber d).name? CharClass.isFoldedLetter
      match baseName? d with
      | some (base, d) => return (⟨c.upTo afterWord, name, some base⟩, d)
      | none => return (⟨c.upTo afterWord, name, none⟩, d)
  else none

/-- The two kinds of routines. -/
inductive RoutineKind where
  | procedure
  | trigger
deriving DecidableEq, Repr

/-- The parts of a routine header. -/
structure RoutineHeader where
  kind : RoutineKind
  name : Extent
deriving Repr

/-- The place after an access keyword and the blanks behind it, or the same place without one. -/
def skipAccess (c : Cursor) : Cursor :=
  match ["local", "internal", "protected"].findSome? fun w =>
      (c.word? w.toList).bind Cursor.blanks? with
  | some d => d
  | none => c

/-- A routine header: an optional access keyword, `procedure` or `trigger`, a name, and the
parenthesis that opens the parameter list. -/
def routineHeader : Pattern RoutineHeader := fun c =>
  if c.atWordEdge then do
    let d := skipAccess c
    let (kind, d) ←
      match d.word? "procedure".toList, d.word? "trigger".toList with
      | some d, _ => some (RoutineKind.procedure, d)
      | none, some d => some (RoutineKind.trigger, d)
      | none, none => none
    let d ← d.blanks?
    let (name, d) ← d.name? CharClass.isFoldedLetter
    let d ← d.blanks.mark? '('
    return (⟨kind, name⟩, d)
  else none

/-- A property with the given name and a value of the given form, found by its value. -/
def property (key : String) (value : Cursor → Option (Extent × Cursor)) : Pattern Extent := fun c =>
  if c.atWordEdge then do
    let d ← c.word? key.toList
    let d ← d.blanks.mark? '='
    let (v, d) ← value d.blanks
    let d ← d.blanks.mark? ';'
    return (v, d)
  else none

/-- The `ObsoleteState` property, whose value is a run of letters. -/
def obsoleteState : Pattern Extent := property "obsoletestate" fun c => do
  let d ← c.some? fun x => CharClass.isFoldedLetter x.char
  return (c.upTo d, d)

/-- The `SourceTable` property, whose value is a name. -/
def sourceTable : Pattern Extent := property "sourcetable" (·.name? CharClass.isFoldedLetter)

/-- Whether a line starts with an `[Obsolete` attribute. -/
def isObsoleteAttribute (line : Cells) : Bool :=
  let c : Cursor := ⟨none, 0, line⟩
  match (c.blanks.mark? '[').bind fun d => d.blanks.word? "obsolete".toList with
  | some d => d.atWordEdge
  | none => false

/-- A keyword that stands as a word of its own. -/
def keyword (w : String) : Pattern Unit := fun c => (c.wholeWord? w.toList).map ((), ·)

/-- The words that open and close blocks. -/
inductive BlockToken where
  | opener
  | closer
deriving DecidableEq, Repr

/-- A word that opens or closes a block. -/
def blockToken : Pattern BlockToken := fun c =>
  match c.wholeWord? "begin".toList, c.wholeWord? "case".toList, c.wholeWord? "end".toList with
  | some d, _, _ => some (.opener, d)
  | none, some d, _ => some (.opener, d)
  | none, none, some d => some (.closer, d)
  | none, none, none => none

/-- The parts of a call up to its parenthesis: a name, and the name after a dot. -/
structure CallHead where
  first : Extent
  member : Option Extent
deriving Repr

/-- The name after a dot. -/
def memberName? (c : Cursor) : Option (Extent × Cursor) :=
  match c.blanks.mark? '.' with
  | some d => d.blanks.name? CharClass.isAsciiLetter
  | none => none

/-- A call up to the parenthesis that opens its arguments. -/
def callHead : Pattern CallHead := fun c => do
  let d ← (c.quoted?).or (if c.atWordEdge then c.plain? CharClass.isAsciiLetter else none)
  let (member, e) := match memberName? d with
    | some (m, e) => (some m, e)
    | none => (none, d)
  let e ← e.blanks.mark? '('
  return (⟨c.upTo d, member⟩, e)

/-- The parts of a type specification: its keyword, and the name after it. -/
structure TypeSpec where
  keyword : Extent
  name : Option Extent
deriving Repr

/-- The place after a length or dimension in brackets, or the same place without one. -/
def skipBrackets (c : Cursor) : Cursor :=
  match (c.blanks.mark? '[').bind fun d => (d.skipWhile fun x => x.char != ']').mark? ']' with
  | some d => d
  | none => c

/-- The type specification that a text starts with; offsets count from the start of the text. -/
def typeSpec? (text : Cells) : Option TypeSpec := do
  let c := (Cursor.mk none 0 text).blanks
  let d ← c.some? fun x => CharClass.isAsciiLetter x.char
  let name := ((skipBrackets d).blanks?).bind (·.name? CharClass.isAsciiLetter)
  return ⟨c.upTo d, name.map (·.1)⟩

/-- Whether a text is one quoted or plain name. -/
def isIdentifier (text : Cells) : Bool :=
  match (Cursor.mk none 0 text).name? CharClass.isAsciiLetter with
  | some (_, d) => d.rest.isEmpty
  | none => false

/-- The name of an argument written `name := value`, and the offset of the value. -/
def namedArgument? (text : Cells) : Option (Extent × Nat) := do
  let c : Cursor := ⟨none, 0, text⟩
  let d ← c.plain? CharClass.isAsciiLetter
  let e ← d.blanks.mark? ':'
  let e ← e.mark? '='
  return (c.upTo d, e.blanks.pos)

end Source
end TreeLint
