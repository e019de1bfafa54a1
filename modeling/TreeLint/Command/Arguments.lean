/-
# Arguments of the command line

There are two commands: one checks a path, one lists the catalog. Arguments are
read from left to right. An option that takes a value may have it attached or in
the next argument; a value in an argument of its own is looked at only when the
next option or path is met or the arguments end, so of two faults an unknown
option found meanwhile is the one that is reported. After `--` every argument is
a path. That the path is missing is reported last.

Key definitions: `UsageError`, `CheckOptions`, `RulesOptions`, `Command`,
`Arguments.Reading`, `Arguments.read`, `Command.ofArguments`.
-/

namespace TreeLint

/-- Why arguments are no command; asking for help or for the version is one of the reasons. -/
inductive UsageError where
  | help
  | helpOnMissingCommand
  | version
  | unknownCommand
  | unknownArgument
  | missingPath
  | invalidValue
  | unexpectedValue
  | repeated
deriving DecidableEq, Repr

namespace UsageError

/-- Whether the arguments asked for an answer and got it. -/
def isAnswer : UsageError → Bool
  | .help | .version => true
  | _ => false

/-- The exit code. -/
def exitCode (e : UsageError) : Nat := if e.isAnswer then 0 else 2

end UsageError

/-- Options of the command that checks a path. -/
structure CheckOptions where
  path : String
  config : Option String := none
  format : String := "pretty"
  showSuppressed : Bool := false
deriving DecidableEq, Repr

/-- Options of the command that lists the catalog. -/
structure RulesOptions where
  format : String := "pretty"
deriving DecidableEq, Repr

/-- A command with its options. -/
inductive Command where
  | check (o : CheckOptions)
  | rules (o : RulesOptions)
deriving DecidableEq, Repr

namespace Arguments

/-- What an argument may be about. -/
inductive Slot where
  | path
  | config
  | format
  | showSuppressed
  | help
  | version
deriving DecidableEq, Repr

namespace Slot

/-- Whether the option takes a value. -/
def takesValue : Slot → Bool
  | .path | .config | .format => true
  | _ => false

/-- The long name. -/
def long : Slot → String
  | .path => ""
  | .config => "config"
  | .format => "format"
  | .showSuppressed => "show-suppressed"
  | .help => "help"
  | .version => "version"

/-- The short name, if there is one. -/
def short? : Slot → Option Char
  | .config => some 'c'
  | .format => some 'f'
  | .help => some 'h'
  | .version => some 'V'
  | _ => none

end Slot

/-- The options that a command has, and whether it takes a path. -/
structure Shape where
  options : List Slot
  takesPath : Bool

namespace Shape

/-- What can be given before a command. -/
def top : Shape := ⟨[.help, .version], false⟩

/-- The command that checks a path. -/
def check : Shape := ⟨[.config, .format, .showSuppressed, .help], true⟩

/-- The command that lists the catalog. -/
def rules : Shape := ⟨[.format, .help], false⟩

end Shape

/-- An argument that is an option: a long one with a value after an equals sign, if any, or a
short one with what follows its letter. -/
inductive Word where
  | plain
  | divider
  | long (name : String) (value : Option String)
  | short (letter : Char) (after : List Char)
deriving DecidableEq, Repr

/-- Cuts a long option at its first equals sign. -/
def cutLong (cs : List Char) : Word :=
  let name := cs.takeWhile (· != '=')
  let value := if name.length < cs.length then some (cs.drop (name.length + 1)) else none
  .long (String.ofList name) (value.map String.ofList)

/-- What an argument looks like. -/
def Word.of (argument : String) : Word :=
  match argument.toList with
  | ['-', '-'] => .divider
  | '-' :: '-' :: cs => cutLong cs
  | '-' :: c :: cs => .short c cs
  | _ => .plain

/-- What is read so far, and the option or path that is not yet looked at, with its value if it
was given. -/
structure Reading where
  path : Option String := none
  config : Option String := none
  format : Option String := none
  showSuppressed : Bool := false
  pending : Option (Slot × Option String) := none
deriving DecidableEq, Repr

namespace Reading

/-- What was given for a slot. -/
def given? (r : Reading) : Slot → Option String
  | .path => r.path
  | .config => r.config
  | .format => r.format
  | _ => none

/-- Gives a slot its value: once, and a path must not be empty. -/
def assign (r : Reading) (slot : Slot) (value : String) : Except UsageError Reading :=
  if (r.given? slot).isSome then .error .repeated
  else match slot with
    | .path => if value.isEmpty then .error .invalidValue else .ok { r with path := some value }
    | .config => if value.isEmpty then .error .invalidValue else .ok { r with config := some value }
    | .format => .ok { r with format := some value }
    | _ => .ok r

/-- Looks at what is pending. -/
def settle (r : Reading) : Except UsageError Reading :=
  match r.pending with
  | none => .ok r
  | some (_, none) => .error .invalidValue
  | some (slot, some value) => { r with pending := none }.assign slot value

/-- An option that takes no value. -/
def flag (r : Reading) (slot : Slot) : Except UsageError Reading :=
  match slot with
  | .help => .error .help
  | .version => .error .version
  | _ => if r.showSuppressed then .error .repeated else .ok { r with showSuppressed := true }

/-- An option, with its value if that is attached. -/
def option (r : Reading) (slot : Slot) (attached : Option String) : Except UsageError Reading :=
  match r.settle with
  | .error e => .error e
  | .ok r =>
    if slot.takesValue then
      match attached with
      | some value => r.assign slot value
      | none => .ok { r with pending := some (slot, none) }
    else r.flag slot

/-- A long option. -/
def long (r : Reading) (shape : Shape) (name : String) (value : Option String) :
    Except UsageError Reading :=
  match shape.options.find? (·.long == name) with
  | none => .error .unknownArgument
  | some slot =>
    if !slot.takesValue && value.isSome then .error .unexpectedValue else r.option slot value

/-- The value attached to a short option: what follows the letter, without an equals sign. -/
def attached? : List Char → Option String
  | [] => none
  | '=' :: cs => some (String.ofList cs)
  | cs => some (String.ofList cs)

/-- A short option. -/
def short (r : Reading) (shape : Shape) (letter : Char) (after : List Char) :
    Except UsageError Reading :=
  match shape.options.find? (·.short? == some letter) with
  | none => .error .unknownArgument
  | some slot => r.option slot (attached? after)

/-- Whether a path was given, looked at or not. -/
def hasPath (r : Reading) : Bool := r.path.isSome || r.pending.any (·.1 == .path)

/-- An argument that is no option: a path. -/
def positional (r : Reading) (shape : Shape) (argument : String) : Except UsageError Reading :=
  if shape.takesPath && !r.hasPath then
    match r.settle with
    | .error e => .error e
    | .ok r => .ok { r with pending := some (.path, some argument) }
  else .error .unknownArgument

/-- An argument before any `--`: an option, the value of the option before it, or a path. -/
def argument (r : Reading) (shape : Shape) (text : String) : Except UsageError Reading :=
  match Word.of text with
  | .long name value => r.long shape name value
  | .short letter after => r.short shape letter after
  | _ =>
    match r.pending with
    | some (slot, none) => .ok { r with pending := some (slot, some text) }
    | _ => r.positional shape text

end Reading

/-- Reads arguments after `--`. -/
def readPaths (shape : Shape) (r : Reading) : List String → Except UsageError Reading
  | [] => r.settle
  | a :: as =>
    match r.positional shape a with
    | .error e => .error e
    | .ok r => readPaths shape r as

/-- Reads the arguments of a command. -/
def read (shape : Shape) (r : Reading) : List String → Except UsageError Reading
  | [] => r.settle
  | a :: as =>
    if Word.of a = .divider then readPaths shape r as
    else match r.argument shape a with
      | .error e => .error e
      | .ok r => read shape r as

end Arguments

namespace Command

open Arguments

/-- The names of the commands; help is one of them. -/
def names : List String := ["check", "lint", "rules", "help"]

/-- Reads the arguments of the command that checks a path. -/
def checkOf (arguments : List String) : Except UsageError Command :=
  match read .check {} arguments with
  | .error e => .error e
  | .ok r =>
    match r.path with
    | none => .error .missingPath
    | some path =>
      .ok (.check ⟨path, r.config, r.format.getD "pretty", r.showSuppressed⟩)

/-- Reads the arguments of the command that lists the catalog. -/
def rulesOf (arguments : List String) : Except UsageError Command :=
  match read .rules {} arguments with
  | .error e => .error e
  | .ok r => .ok (.rules ⟨r.format.getD "pretty"⟩)

/-- Help is given for the tool or for one command. -/
def helpOf : List String → UsageError
  | [] => .help
  | [name] => if names.contains name then .help else .unknownCommand
  | _ => .unknownCommand

/-- What is wrong with arguments that start with an option or an unknown name. -/
def refusal (first : String) (rest : List String) : UsageError :=
  match Word.of first with
  | .divider =>
    match rest with
    | [] => .helpOnMissingCommand
    | a :: _ => if names.contains a then .unknownArgument else .unknownCommand
  | .plain => .unknownCommand
  | _ =>
    match ({} : Reading).argument .top first with
    | .error e => e
    | .ok _ => .unknownArgument

/-- The command that arguments give. -/
def ofArguments : List String → Except UsageError Command
  | [] => .error .helpOnMissingCommand
  | "check" :: rest | "lint" :: rest => checkOf rest
  | "rules" :: rest => rulesOf rest
  | "help" :: rest => .error (helpOf rest)
  | first :: rest => .error (refusal first rest)

end Command
end TreeLint
