/-
# Files that a command can see

What a command reads is a store: files and directories by the names that lead to
them from the root, in order, and the directory in which the command runs. Every
directory on the way to an entry exists. A path is followed name by name, as a
system does, and what goes wrong is a cause.

Key definitions: `FileError`, `FileStore`, `FileStore.resolve`,
`FileStore.lookUp`, `FileStore.read`, `FileStore.below`.
-/
import TreeLint.Files.Path

namespace TreeLint

/-- Why a path cannot be followed or a file cannot be read. -/
inductive FileError where
  | notFound
  | notDirectory
  | isDirectory
  | nameTooLong
  | zeroByte
  | notText
deriving DecidableEq, Repr

/-- The text of an error. -/
def FileError.message : FileError → String
  | .notFound => "No such file or directory (os error 2)"
  | .notDirectory => "Not a directory (os error 20)"
  | .isDirectory => "Is a directory (os error 21)"
  | .nameTooLong => "File name too long (os error 36)"
  | .zeroByte => "file name contained an unexpected NUL byte"
  | .notText => "stream did not contain valid UTF-8"

/-- The names that lead from the root to an entry. -/
abbrev Location := List String

/-- A file, with its text if its bytes are text, or a directory. -/
inductive FileEntry where
  | directory
  | file (text : Option String)
deriving DecidableEq, Repr

/-- Files and directories in the order of their locations, and the directory in which the command
runs. -/
structure FileStore where
  workingDirectory : Location
  entries : List (Location × FileEntry) := []
deriving DecidableEq, Repr

/-- The absolute path of a location. -/
def Location.path (l : Location) : String := "/" ++ String.intercalate "/" l

/-- Whether one location comes before another: names are compared one by one. -/
def Location.before : Location → Location → Bool
  | [], _ => true
  | _ :: _, [] => false
  | a :: as, b :: bs => if a = b then Location.before as bs else a < b

namespace FileStore

/-- A store of the given entries. -/
def ofEntries (workingDirectory : Location) (entries : List (Location × FileEntry)) : FileStore where
  workingDirectory
  entries := entries.mergeSort fun a b => Location.before a.1 b.1

/-- What stands at a location: a file of the store, or a directory, which also every location is
that leads to an entry or to the working directory. -/
def entry? (s : FileStore) (l : Location) : Option FileEntry :=
  match s.entries.lookup l with
  | some e => some e
  | none =>
    if l.isPrefixOf s.workingDirectory || s.entries.any (fun (m, _) => l.isPrefixOf m) then
      some .directory
    else none

/-- Checks that a location is a directory. -/
def enter (s : FileStore) (l : Location) : Except FileError Unit :=
  match s.entry? l with
  | some .directory => .ok ()
  | some (.file _) => .error .notDirectory
  | none => .error .notFound

/-- Follows segments from a location, each of which must start in a directory. -/
def follow (s : FileStore) (l : Location) : List String → Except FileError Location
  | [] => .ok l
  | seg :: rest =>
    match s.enter l with
    | .error e => .error e
    | .ok () =>
      if Path.isIdle seg then follow s l rest
      else if seg = ".." then follow s l.dropLast rest
      else if seg.utf8ByteSize > 255 then .error .nameTooLong
      else follow s (l ++ [seg]) rest

/-- The location that a path leads to, and what stands there. -/
def resolve (s : FileStore) (path : String) : Except FileError (Location × FileEntry) :=
  if path.toList.contains '\x00' then .error .zeroByte
  else if path.isEmpty then .error .notFound
  else
    let start := if Path.isAbsolute path then [] else s.workingDirectory
    match s.follow start (Path.segments path) with
    | .error e => .error e
    | .ok l =>
      match s.entry? l with
      | some e => .ok (l, e)
      | none => .error .notFound

/-- How many bytes the path of what is looked up or opened may have; the limit does not apply where
a path is only followed. -/
def longestPath : Nat := 4095

/-- What a path leads to, for a path that is handed to the system as a whole. -/
def lookUp (s : FileStore) (path : String) : Except FileError (Location × FileEntry) :=
  if path.utf8ByteSize > longestPath && !path.toList.contains '\x00' then .error .nameTooLong
  else s.resolve path

/-- Whether a path leads to a file. -/
def isFile (s : FileStore) (path : String) : Bool :=
  match s.lookUp path with
  | .ok (_, .file _) => true
  | _ => false

/-- Whether a path leads to a directory. -/
def isDirectory (s : FileStore) (path : String) : Bool :=
  match s.lookUp path with
  | .ok (_, .directory) => true
  | _ => false

/-- The text of the file that a path leads to. -/
def read (s : FileStore) (path : String) : Except FileError String :=
  match s.lookUp path with
  | .ok (_, .file (some text)) => .ok text
  | .ok (_, .file none) => .error .notText
  | .ok (_, .directory) => .error .isDirectory
  | .error e => .error e

/-- The files below a location, each by the names that lead to it from there, in order. -/
def below (s : FileStore) (l : Location) : List Location :=
  s.entries.filterMap fun
    | (m, .file _) => if l.isPrefixOf m then some (m.drop l.length) else none
    | _ => none

/-- The names of the files in the directory that a path leads to, in order. -/
def filesIn (s : FileStore) (path : String) : List String :=
  match s.lookUp path with
  | .ok (l, .directory) => (s.below l).filterMap fun
    | [name] => some name
    | _ => none
  | _ => []

end FileStore
end TreeLint
