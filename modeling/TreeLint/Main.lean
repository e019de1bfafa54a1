/-
# The command line

Takes a snapshot of the files that a command may look at, runs the command over
it, and writes what it gives.

Key definitions: `Snapshot.take`, `main`.
-/
import TreeLint.Command.Run

namespace TreeLint

/-- What is said about arguments that are no command. -/
def UsageError.message : UsageError → String
  | .help | .helpOnMissingCommand =>
    "Usage: alcop check [-c FILE] [-f pretty|json|sarif] [--show-suppressed] PATH\n" ++
    "       alcop rules [-f pretty|json]"
  | .version => Report.toolName ++ " " ++ Report.version
  | .unknownCommand => "error: unrecognized subcommand"
  | .unknownArgument => "error: unexpected argument"
  | .missingPath => "error: a path is required"
  | .invalidValue => "error: invalid value for an argument"
  | .unexpectedValue => "error: unexpected value for an argument"
  | .repeated => "error: an argument cannot be used multiple times"

/-- The location of a path seen from a directory. -/
def Location.follow (dir : Location) (path : String) : Location :=
  (Path.steps path).foldl (fun l step =>
    match step with
    | .root => []
    | .here => l
    | .up => l.dropLast
    | .entry name => l ++ [name]) dir

namespace Snapshot

/-- What stands at a location as the system sees it. -/
def place (l : Location) : IO.FS.DirEntry := ⟨Location.path l.dropLast, l.getLastD ""⟩

/-- The file at a location, if there is one. -/
def file (l : Location) : IO (List (Location × FileEntry)) := do
  if ← (place l).path.isDir then return [(l, .directory)]
  if ← (place l).path.pathExists then
    let bytes ← IO.FS.readBinFile (place l).path
    return [(l, .file (String.fromUTF8? bytes))]
  return []

/-- The files at and below a location that a check may read. -/
partial def below (l : Location) : IO (List (Location × FileEntry)) := do
  if ← (place l).path.isDir then
    let mut entries := [(l, FileEntry.directory)]
    for item in ← (place l).path.readDir do
      let inner := l ++ [item.fileName]
      if ← item.path.isDir then
        unless Inputs.isSkipped item.fileName do entries := entries ++ (← below inner)
      else if Inputs.isInput item.fileName || Config.fileNames.contains item.fileName then
        entries := entries ++ (← file inner)
    return entries
  else file l

/-- The files that a command may read. -/
def take (command : Command) : IO FileStore := do
  let here := Location.follow [] (toString (← IO.currentDir))
  match command with
  | .rules _ => return .ofEntries here []
  | .check o =>
    let target := here.follow o.path
    let found ← below target
    let configs ← (o.config.toList.map here.follow ++
      Config.fileNames.map fun name => target.dropLast ++ [name]).mapM file
    return .ofEntries here (found ++ configs.flatten.filter fun e => !found.any (·.1 == e.1))

end Snapshot
end TreeLint

open TreeLint in
/-- Runs the command that the arguments give. -/
def main (arguments : List String) : IO UInt32 := do
  match Command.ofArguments arguments with
  | .error e =>
    if e.isAnswer then IO.println e.message else IO.eprintln e.message
    return e.exitCode.toUInt32
  | .ok command =>
    let run := command.run (← Snapshot.take command) false
    IO.print run.stdout
    for line in run.stderr ++ (run.failure.map ("Error: " ++ ·)).toList do IO.eprintln line
    return run.exitCode.toUInt32
