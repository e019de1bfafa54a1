/-
# Inputs of a check

A check of a directory takes every tree export and every source below it, in the
order of the names, but nothing in hidden directories or in build output, and
not the manifests that a project keeps as JSON. A single file is taken whatever
its name.

Key definitions: `Inputs.isSkipped`, `Inputs.isInput`, `Inputs.collect`,
`Inputs.load`.
-/
import TreeLint.Files.Store
import TreeLint.Semantic.Format
import TreeLint.Source.Resolve

namespace TreeLint
namespace Inputs

/-- JSON files of a project that are not tree exports. -/
def manifests : List String := ["app.json", "launch.json", "settings.json"]

/-- Whether what lies in a directory of that name is left out. -/
def isSkipped (name : String) : Bool := name.toList.head? == some '.' || name == "target"

/-- Whether a file of that name is an input. -/
def isInput (name : String) : Bool :=
  [some "json", some "al"].contains (Path.extension? name) &&
    !manifests.any (Name.eqIgnoreCase · name)

/-- Whether a file below the directory is taken. -/
def isTaken (names : Location) : Bool :=
  !names.dropLast.any isSkipped && names.getLast?.any isInput

/-- The paths of the inputs below a directory, in order. -/
def collect (s : FileStore) (dir : Location) : List String :=
  ((s.below dir).filter isTaken).map fun names => Location.path (dir ++ names)

/-- Loads one input: a source is resolved, anything else is read as a tree export. -/
def load? (s : FileStore) (path : String) : Option Tree :=
  match s.read path with
  | .error _ => none
  | .ok text =>
    if Path.extension? path = some "al" then (Source.resolve path text).toOption
    else (Tree.load text).toOption

end Inputs
end TreeLint
