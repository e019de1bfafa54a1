/-
# Paths

A path is a text with slashes between its segments. What it names depends only
on its steps: empty segments and further dots mean nothing, a leading slash is
the root, a leading dot is where one stands, and two dots go up. Two spellings
with the same steps are the same path.

Key definitions: `Path.Step`, `Path.steps`, `Path.join`, `Path.fileName?`,
`Path.extension?`, `Path.stem?`, `Path.relativeTo`.
-/

namespace TreeLint
namespace Path

/-- One step along a path. -/
inductive Step where
  | root
  | here
  | up
  | entry (name : String)
deriving DecidableEq, Repr

/-- The parts of a text between slashes. -/
def split : List Char → List (List Char)
  | [] => [[]]
  | c :: cs =>
    if c = '/' then [] :: split cs
    else match split cs with
      | [] => [[c]]
      | s :: ss => (c :: s) :: ss

/-- The segments of a path; the empty path has none. -/
def segments (path : String) : List String :=
  if path.isEmpty then [] else (split path.toList).map String.ofList

/-- The step of a segment, if it is one; `first` says that nothing stands before it. -/
def step? (first : Bool) (segment : String) : Option Step :=
  if segment = "" then if first then some .root else none
  else if segment = "." then if first then some .here else none
  else if segment = ".." then some .up
  else some (.entry segment)

/-- The steps of segments. -/
def stepsFrom (first : Bool) : List String → List Step
  | [] => []
  | s :: ss => (step? first s).toList ++ stepsFrom false ss

/-- The steps of a path. -/
def steps (path : String) : List Step := stepsFrom true (segments path)

/-- Whether a path starts at the root. -/
def isAbsolute (path : String) : Bool := path.toList.head? == some '/'

/-- A path seen from a directory: an absolute one stands for itself. -/
def join (dir path : String) : String :=
  if isAbsolute path || dir.isEmpty then path
  else if dir.toList.getLast? == some '/' then dir ++ path
  else dir ++ "/" ++ path

/-- The name of what a path leads to, if its last step is a name. -/
def fileName? (path : String) : Option String :=
  match (steps path).getLast? with
  | some (.entry name) => some name
  | _ => none

/-- A name cut at its last dot; a name with its only dot in front is not cut. -/
def cutName (name : String) : String × Option String :=
  let after := name.toList.reverse.takeWhile (· != '.')
  let before := name.toList.reverse.drop (after.length + 1)
  if before.isEmpty then (name, none)
  else (String.ofList before.reverse, some (String.ofList after.reverse))

/-- What stands after the last dot of the name. -/
def extension? (path : String) : Option String := (fileName? path).bind fun n => (cutName n).2

/-- What stands before the last dot of the name. -/
def stem? (path : String) : Option String := (fileName? path).map fun n => (cutName n).1

/-- The segments that are left after the given steps, if these come first. -/
def afterSteps? (first : Bool) : List Step → List String → Option (List String)
  | [], ss => some ss
  | _ :: _, [] => none
  | p :: ps, s :: ss =>
    match step? first s with
    | none => afterSteps? false (p :: ps) ss
    | some q => if p = q then afterSteps? false ps ss else none

/-- A segment that is no step within a path. -/
def isIdle (segment : String) : Bool := segment == "" || segment == "."

/-- Segments without idle ones at either end. -/
def trimIdle (ss : List String) : List String :=
  (((ss.dropWhile isIdle).reverse).dropWhile isIdle).reverse

/-- A text with slashes in place of backslashes. -/
def withSlashes (s : String) : String :=
  String.ofList (s.toList.map fun c => if c = '\\' then '/' else c)

/-- A file as seen from a base path: the rest of it when the base leads there, its name when the
base is the file, and otherwise the file as it is written. -/
def relativeTo (base file : String) : String :=
  if base.isEmpty then file
  else if steps file = steps base then (fileName? file).getD file
  else match afterSteps? true (steps base) (segments file) with
    | some rest => withSlashes (String.intercalate "/" (trimIdle rest))
    | none => file

end Path
end TreeLint
