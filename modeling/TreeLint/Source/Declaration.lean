/-
# Variable declarations and type specifications

A section of declarations is a sequence `name, name: Type;`. Its segments end at
semicolons outside quoted names, and the colon is the first one outside quoted
names. Reading stops at the first segment that is not a declaration.

Key definitions: `Source.typeOf?`, `Source.declaredNames?`,
`Text.declarations`.
-/
import TreeLint.Semantic.Tree
import TreeLint.Source.Text

namespace TreeLint
namespace Source

/-- Whether a type keyword is followed by the name of an object. -/
def takesObjectName (k : TypeKind) : Bool :=
  [TypeKind.record, .codeunit, .page, .report, .query, .xmlPort, .enum].contains k

/-- The type that a type specification names. It is temporary when the word `temporary` occurs
anywhere in the specification. -/
def typeOf? (text : Cells) : Option TypeInfo :=
  match typeSpec? text with
  | none => none
  | some spec =>
    let kind := TypeKind.ofKeyword (text.slice spec.keyword).text
    let name := if takesObjectName kind then spec.name else none
    some {
      kind
      name := name.map fun r => Name.unquote (text.slice r).text
      temporary := ((keyword "temporary").first? ⟨none, 0, text⟩).isSome }

/-- The text after a leading `var` and the blanks behind it. -/
def stripVar? (text : Cells) : Option Cells :=
  let head := text.take 3
  let rest := text.drop 3
  if (head.map fun c => CharClass.lower c.char) == ['v', 'a', 'r'] && rest.head?.any Cell.isBlank
  then some (Cells.trimStart rest)
  else none

/-- The names before the colon of a declaration, if all of them are names; a parameter may be
preceded by `var`. -/
def declaredNames? (text : Cells) (parameters : Bool) : Option (List String) :=
  let text := text.trim
  let text := if parameters then (stripVar? text).getD text else text
  let names := (text.splitOn ',').map Cells.trim
  if names.all isIdentifier then some (names.map fun n => Name.unquote n.text) else none

/-- The segments of an interval between the semicolons. -/
def segmentsFrom (start pos : Nat) : Cells → List Extent
  | [] => [⟨start, pos⟩]
  | c :: cs =>
    if c.char = ';' then ⟨start, pos⟩ :: segmentsFrom (pos + 1) (pos + 1) cs
    else segmentsFrom start (pos + 1) cs

namespace Text

/-- The declared names and types of one segment. -/
def declaration? (t : Text) (parameters : Bool) (r : Extent) : Option (List (String × TypeInfo)) :=
  match (t.bare.slice r).findChar? ':' r.start with
  | none => none
  | some colon =>
    match declaredNames? (t.masked.slice ⟨r.start, colon⟩) parameters,
        typeOf? (t.masked.slice ⟨colon + 1, r.stop⟩) with
    | some names, some type => some (names.map fun n => (n, type))
    | _, _ => none

/-- The declarations of a list of segments: blank segments are skipped, and the first segment
that is no declaration ends them. -/
def declarationsIn (t : Text) (parameters : Bool) : List Extent → List (String × TypeInfo)
  | [] => []
  | r :: rs =>
    if (t.bare.slice r).isBlank then declarationsIn t parameters rs
    else match t.declaration? parameters r with
      | some ds => ds ++ declarationsIn t parameters rs
      | none => []

/-- The declarations of an interval. -/
def declarations (t : Text) (r : Extent) (parameters : Bool) : List (String × TypeInfo) :=
  t.declarationsIn parameters (segmentsFrom r.start r.start (t.bare.slice r))

end Text
end Source
end TreeLint
