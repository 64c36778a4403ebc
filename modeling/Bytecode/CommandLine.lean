import Bytecode.Job

/-! The command line: its commands, how their arguments are read, and what they do. -/

namespace Bytecode

/-- What the arguments behind a command say: paths, and options with their values. -/
structure Arguments where
  paths : List String := []
  config : Option String := none
  trace : Bool := false
  profileOpcodes : Bool := false
  /-- The option to send the listing somewhere: to a file, or without one to the standard errors. -/
  dump : Option (Option String) := none

/-- A command. -/
inductive Command where
  | run (a : Arguments) (file : String)
  | list (file : String)
  | check (file : String)

namespace Arguments

/-- A path, which must not be empty. -/
def addPath (a : Arguments) (path : String) : Option Arguments :=
  if path = "" then none else some { a with paths := a.paths ++ [path] }

/-- Paths one after the other. -/
def addPaths (a : Arguments) (paths : List String) : Option Arguments :=
  paths.foldlM addPath a

/-- The file with the settings, which must not be given twice. -/
def setConfig (a : Arguments) (path : String) : Option Arguments :=
  if path = "" ∨ a.config.isSome then none else some { a with config := some path }

/-- The target of the listing, which must not be given twice. -/
def setDump (a : Arguments) (path : Option String) : Option Arguments :=
  if path = some "" ∨ a.dump.isSome then none else some { a with dump := some path }

/-- A flag of the command `run`, which must not be given twice. -/
def setFlag (a : Arguments) (name : String) : Option Arguments :=
  if name = "--trace" ∧ !a.trace then some { a with trace := true }
  else if name = "--profile-opcodes" ∧ !a.profileOpcodes then some { a with profileOpcodes := true }
  else if name = "--dump-bytecode" then a.setDump none
  else none

/-- An option with its value behind an equals sign. -/
def setValue (a : Arguments) (name value : String) : Option Arguments :=
  if name = "--config" then a.setConfig value
  else if name = "--dump-bytecode" then a.setDump (some value)
  else none

/-- Whether an argument is an option: it starts with a hyphen and is longer than that. -/
def isOption (arg : String) : Bool :=
  arg.startsWith "-" && arg != "-"

/-- Reads arguments. Only the command `run` has options; a double hyphen ends them. -/
def read (withOptions : Bool) : List String → Arguments → Option Arguments
  | [], a => some a
  | "--" :: rest, a => a.addPaths rest
  | arg :: rest, a =>
    if !isOption arg then (a.addPath arg).bind (read withOptions rest)
    else if !withOptions then none
    else
      match arg.splitOn "=" with
      | name :: value :: more => (a.setValue name ("=".intercalate (value :: more))).bind (read withOptions rest)
      | _ =>
        if arg = "--config" then
          match rest with
          | path :: rest => if isOption path then none else (a.setConfig path).bind (read withOptions rest)
          | [] => none
        else (a.setFlag arg).bind (read withOptions rest)

/-- The single path among the arguments. -/
def path? (a : Arguments) : Option String :=
  match a.paths with
  | [path] => some path
  | _ => none

/-- Where the listing goes. -/
def target (a : Arguments) : ListingTarget :=
  match a.dump with
  | none => .nowhere
  | some none => .errors
  | some (some path) => .file path

end Arguments

namespace Command

/-- The command that arguments spell. -/
def parse? : List String → Option Command
  | "run" :: rest => do
    let a ← Arguments.read true rest {}
    return .run a (← a.path?)
  | "ir" :: rest => do
    let a ← Arguments.read false rest {}
    return .list (← a.path?)
  | "check" :: rest => do
    let a ← Arguments.read false rest {}
    return .check (← a.path?)
  | _ => none

/-- The files that a command reads. -/
def reads : Command → List String
  | .run a file => a.config.toList ++ [file]
  | .list file | .check file => [file]

/-- The file that a command writes. -/
def writes? : Command → Option String
  | .run a _ => a.dump.join
  | .list _ | .check _ => none

/-- How to use the commands. -/
def usage : String :=
  "usage: run FILE [--config FILE] [--trace] [--profile-opcodes] [--dump-bytecode[=FILE]] | ir FILE | check FILE\n"

/-- Ends a command with an error. -/
def fail (con : Console) (lead : String) (e : JobError) : Nat × Console :=
  (1, { con with errors := con.errors ++ lead ++ e.message ++ "\n" })

/-- Ends a command with a text on the output. -/
def succeed (con : Console) (text : String) : Nat × Console :=
  (0, { con with output := con.output ++ text.toUTF8.data })

/-- Ends the command `run` after its program. -/
def conclude (r : Except JobError Unit × Console) : Nat × Console :=
  match r with
  | (.ok (), con) => (0, con)
  | (.error e, con) => fail con "" e

/-- The settings of the command `run`: those of its file, and what its flags turn on. -/
def settings (files : Files) (a : Arguments) : Except JobError Settings := do
  let s ← match a.config with
    | none => pure {}
    | some path => files.loadSettings path
  return ⟨s.trace || a.trace, s.profileOpcodes || a.profileOpcodes⟩

/-- How far a command comes without running a program. -/
inductive Progress where
  /-- It has ended with an exit code. -/
  | ended (result : Nat × Console)
  /-- A chunk is to be run under settings. -/
  | ready (con : Console) (settings : Settings) (c : Chunk)

/-- Carries out a command up to the run of a program. -/
def start (con : Console) : Command → Progress
  | .run a file =>
    match settings con.files a with
    | .error e => .ended (fail con "error: " e)
    | .ok settings =>
      match con.load file a.target with
      | .error e => .ended (fail con "" e)
      | .ok (c, con) => .ready con settings c
  | .list file =>
    match con.files.listing file with
    | .ok text => .ended (succeed con text)
    | .error e => .ended (fail con "" e)
  | .check file =>
    match con.files.loadChunk file with
    | .ok _ => .ended (succeed con "Code generation passed.\n")
    | .error e => .ended (fail con "" e)

/-- Carries out a command: the exit code and the console behind it. Nothing if a program takes more instructions than
the bound. -/
def perform? (con : Console) (bound : Nat) (command : Command) : Option (Nat × Console) :=
  match command.start con with
  | .ended result => some result
  | .ready con settings c => (con.execute? settings c bound).map conclude

end Command

end Bytecode
