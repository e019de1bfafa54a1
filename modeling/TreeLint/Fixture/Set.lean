/-
# Directories of fixtures

The fixtures of a rule are numbered files in two directories: those with marked
diagnostics and those without any. They are checked in the order of their
numbers, the first kind first, and all failures are reported together.

Key definitions: `CaseKind`, `FixtureCase`, `FixtureSet`,
`FixtureSet.ofDirectory`, `FixtureSet.all`, `RuleFixture.verify`,
`RuleFixture.verifyAll`.
-/
import TreeLint.Files.Store
import TreeLint.Fixture.Basic
import TreeLint.Text.Decimal

namespace TreeLint

/-- What a fixture expects. -/
inductive CaseKind where
  | hasDiagnostic
  | noDiagnostic
deriving DecidableEq, Repr

namespace CaseKind

/-- Both kinds, in order. -/
def all : List CaseKind := [.hasDiagnostic, .noDiagnostic]

/-- The name of a kind and of its directory. -/
def name : CaseKind → String
  | .hasDiagnostic => "HasDiagnostic"
  | .noDiagnostic => "NoDiagnostic"

end CaseKind

/-- One fixture file. -/
structure FixtureCase where
  kind : CaseKind
  index : Nat
  path : String
deriving DecidableEq, Repr

/-- The directory of a rule's fixtures. -/
structure FixtureSet where
  root : String
deriving DecidableEq, Repr

/-- Why fixtures cannot be opened or do not hold. -/
inductive FixtureSetError where
  | missing (path : String)
  | unreadable (path : String) (e : FileError)
  | mismatch (kind : CaseKind) (path : String) (e : FixtureError)
  | failures (messages : List String) (total : Nat)
deriving DecidableEq, Repr

/-- The text of an error. -/
def FixtureSetError.message : FixtureSetError → String
  | .missing path => s!"fixture directory {path} does not exist"
  | .unreadable path e => s!"failed to read fixture {path}: " ++ e.message
  | .mismatch kind path e => kind.name ++ s!" case {path}: " ++ e.message
  | .failures messages total =>
    s!"{messages.length} of {total} cases failed:\n" ++ String.intercalate "\n" messages

namespace FixtureSet

/-- The directory of a rule among the directories of fixtures. -/
def ofDirectory (s : FileStore) (fixtures rule : String) : Except FixtureSetError FixtureSet :=
  let root := Path.join fixtures rule
  if s.isDirectory root then .ok ⟨root⟩ else .error (.missing root)

/-- The case of a file, if its name is a number and its extension that of sources. -/
def case? (kind : CaseKind) (path : String) : Option FixtureCase :=
  if Path.extension? path = some "al" then
    ((Path.stem? path).bind fun stem => Decimal.ofChars? Decimal.limit32 stem.toList).map fun i =>
      ⟨kind, i, path⟩
  else none

/-- The cases of a kind, in the order of their numbers. -/
def cases (s : FileStore) (set : FixtureSet) (kind : CaseKind) : List FixtureCase :=
  let dir := Path.join set.root kind.name
  ((s.filesIn dir).filterMap fun name => case? kind (Path.join dir name)).mergeSort
    fun a b => a.index ≤ b.index

/-- All cases, those with diagnostics first. -/
def all (s : FileStore) (set : FixtureSet) : List FixtureCase :=
  CaseKind.all.flatMap (set.cases s)

end FixtureSet

namespace RuleFixture

/-- Checks one case. -/
def verify (f : RuleFixture) (s : FileStore) (c : FixtureCase) (id : String) :
    Except FixtureSetError Unit :=
  match s.read c.path with
  | .error e => .error (.unreadable c.path e)
  | .ok code =>
    let outcome := match c.kind with
      | .hasDiagnostic => f.hasDiagnostic code id
      | .noDiagnostic => f.noDiagnostic code id
    match outcome with
    | .ok () => .ok ()
    | .error e => .error (.mismatch c.kind c.path e)

/-- The message of a failed case. -/
def failure? (f : RuleFixture) (s : FileStore) (id : String) (c : FixtureCase) : Option String :=
  match f.verify s c id with
  | .ok () => none
  | .error e => some e.message

/-- Checks all cases of a set and counts them. -/
def verifyAll (f : RuleFixture) (s : FileStore) (set : FixtureSet) (id : String) :
    Except FixtureSetError Nat :=
  let cases := set.all s
  let failures := cases.filterMap (f.failure? s id)
  if failures.isEmpty then .ok cases.length else .error (.failures failures cases.length)

end RuleFixture
end TreeLint
