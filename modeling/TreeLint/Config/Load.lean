/-
# Configuration files

The configuration of a command is the file it is given, else the first of the
usual names in the directory it checks, else the defaults. A file that is loaded
is also validated.

Key definitions: `Config.discover?`, `LoadConfigError`, `Config.load`.
-/
import TreeLint.Config.Format
import TreeLint.Files.Store

namespace TreeLint

/-- Why no configuration can be loaded. -/
inductive LoadConfigError where
  | unreadable (path : String) (e : FileError)
  | malformed (path : String)
  | invalid (e : ConfigError)
deriving DecidableEq, Repr

/-- The text of an error. -/
def LoadConfigError.message : LoadConfigError → String
  | .unreadable path e => s!"failed to load config {path}: " ++ e.message
  | .malformed path => s!"failed to load config {path}: malformed configuration"
  | .invalid e => e.message

namespace Config

/-- The configuration file in a directory. -/
def discover? (s : FileStore) (dir : String) : Option String :=
  (fileNames.map (Path.join dir)).find? s.isFile

/-- Reads and validates the configuration file of a path. -/
def loadFile (s : FileStore) (path : String) : Except LoadConfigError Config :=
  match s.read path with
  | .error e => .error (.unreadable path e)
  | .ok text =>
    match parse? text with
    | none => .error (.malformed path)
    | some c =>
      match c.validate with
      | .ok () => .ok c
      | .error e => .error (.invalid e)

/-- The configuration of a command: the given file, else the one in a directory, else the
defaults. -/
def load (s : FileStore) (given : Option String) (dir : String) : Except LoadConfigError Config :=
  match given.or (discover? s dir) with
  | some path => loadFile s path
  | none => .ok {}

end Config
end TreeLint
