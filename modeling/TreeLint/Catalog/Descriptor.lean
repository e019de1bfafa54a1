/-
# Descriptors of diagnostics

A descriptor says what one kind of diagnostic is about: its id, its severity,
whether it is on by default, and the template of its message. Several
descriptors may share an id, if all but the first name that first one as the
descriptor they are an alias of.

Key definitions: `Severity`, `Descriptor`, `Descriptor.isValidId`,
`Descriptor.fill`, `Descriptor.format`.
-/
import TreeLint.Text.Decimal
import TreeLint.Text.Name

namespace TreeLint

/-- How serious a diagnostic is, from least to most. -/
inductive Severity where
  | hidden
  | info
  | warning
  | error
deriving DecidableEq, Repr

namespace Severity

/-- Every severity, from least to most. -/
def all : List Severity := [.hidden, .info, .warning, .error]

/-- The name of a severity. -/
def name : Severity → String
  | .hidden => "hidden"
  | .info => "info"
  | .warning => "warning"
  | .error => "error"

/-- The place of a severity in the order. -/
def rank : Severity → Nat
  | .hidden => 0
  | .info => 1
  | .warning => 2
  | .error => 3

/-- Whether one severity is below another. -/
def less (a b : Severity) : Bool := a.rank < b.rank

/-- The severity of exactly that name. -/
def ofName? (s : String) : Option Severity := all.find? (·.name == s)

/-- The severity of a name in any case, or a message. -/
def ofText (s : String) : Except String Severity :=
  match ofName? (Name.lower s) with
  | some x => .ok x
  | none => .error s!"unknown severity: {s}"

end Severity

/-- What one kind of diagnostic is about. -/
structure Descriptor where
  id : String
  name : String
  category : String
  severity : Severity
  enabledByDefault : Bool
  title : String
  template : String
  description : String
  aliasOf : Option String := none
deriving DecidableEq, Repr

namespace Descriptor

/-- Documentation pages live under this address, one page per id. -/
def helpBase : String := "https://github.com/StefanMaron/BusinessCentral.LinterCop/wiki/"

/-- The documentation page of an id. -/
def helpUri (id : String) : String := helpBase ++ id

/-- Whether the text is an id: `LC` and four ASCII digits. -/
def isValidId (s : String) : Bool :=
  match s.toList with
  | ['L', 'C', a, b, c, d] => [a, b, c, d].all CharClass.isAsciiDigit
  | _ => false

/-- Whether the descriptor shares the id of another. -/
def isAlias (d : Descriptor) : Bool := d.aliasOf.isSome

/-- The argument whose number a placeholder holds, given the text after its opening brace, and how
much of that text it takes. -/
def placeholder? (args : List String) (after : List Char) : Option (List Char × Nat) :=
  let inner := after.takeWhile (· != '\x7d')
  if inner.length < after.length then
    match (Decimal.ofChars? Decimal.limit64 inner).bind (args[·]?) with
    | some arg => some (arg.toList, inner.length + 1)
    | none => none
  else none

/-- Fills the placeholders of a template, from left to right; the first `skip` characters are
part of a placeholder that is already filled. An opening brace that starts no placeholder with an
argument stands for itself. -/
def fill (args : List String) : Nat → List Char → List Char
  | _, [] => []
  | skip + 1, _ :: cs => fill args skip cs
  | 0, c :: cs =>
    if c = '\x7b' then
      match placeholder? args cs with
      | some (arg, n) => arg ++ fill args n cs
      | none => c :: fill args 0 cs
    else c :: fill args 0 cs

/-- Text without an opening brace is passed over. -/
theorem fill_append_of_not_mem (args : List String) (back : List Char) :
    ∀ {front : List Char}, '\x7b' ∉ front → fill args 0 (front ++ back) = front ++ fill args 0 back
  | [], _ => rfl
  | c :: front, h => by
    have hc : c ≠ '\x7b' := fun heq => h (heq ▸ List.mem_cons_self)
    rw [List.cons_append, fill, if_neg hc,
      fill_append_of_not_mem args back fun hmem => h (List.mem_cons_of_mem c hmem),
      List.cons_append]

/-- The message of the descriptor for some arguments. -/
def format (d : Descriptor) (args : List String) : String :=
  String.ofList (fill args 0 d.template.toList)

end Descriptor
end TreeLint
