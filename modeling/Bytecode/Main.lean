import Bytecode.CommandLine

/-! The program: files, streams and arguments of the operating system around the commands. -/

namespace Bytecode.Main

/-- Takes what is at a place into the known files. -/
def lookUp (files : Files) (p : Place) : IO Files := do
  if ← ((← IO.currentDir) / p.text).isDir then return files.put p .directory
  match ← (IO.FS.readBinFile p.text).toBaseIO with
  | .ok bytes => return files.put p (.file bytes.data)
  | .error _ => return files

/-- The places that a path leads through, each as far as its names are followed. -/
def placesOn (path : String) : List Place :=
  let names := Place.namesIn path
  (List.range names.length).map fun i => (names.take (i + 1)).foldl Place.go (Place.start path)

/-- Takes in all that a command may reach. -/
def gather (command : Command) : IO Files :=
  ((command.reads ++ command.writes?.toList).flatMap placesOn).foldlM lookUp {}

/-- Reads on until the input holds a whole line or ends. -/
partial def fill (stdin : IO.FS.Stream) (input : Input) : IO Input := do
  if input.rest.contains 10 then return input
  let bytes ← stdin.read 4096
  if bytes.isEmpty then return input else fill stdin ⟨input.rest ++ bytes.toList⟩

/-- Prints what a state has written and the notes taken so far, and forgets them. -/
def print (s : State) (d : Diagnostics) : IO (State × Diagnostics) := do
  if !s.output.written.isEmpty then
    (← IO.getStdout).write ⟨s.output.written⟩
  if !d.notes.isEmpty then
    (← IO.getStderr).putStr d.text
  return ({ s with output := { s.output with written := #[] } }, { d with notes := #[] })

/-- Executes instructions until the run ends, reading and printing on the way. -/
partial def drive (c : Chunk) (settings : Settings) (s : State) (d : Diagnostics) : IO Ending := do
  match s.next? with
  | none => return ⟨.ok (), s, d⟩
  | some (f, callers, i) =>
    let s ← match i with
      | .read => pure { s with input := ← fill (← IO.getStdin) s.input }
      | _ => pure s
    let d := d.observe settings f callers i
    match s.step c f callers i with
    | .running s =>
      let (s, d) ← print s d
      drive c settings s d
    | .faulted fault s =>
      let (s, d) ← print s d
      return ⟨.error ⟨fault, some (f.site i)⟩, s, d⟩

/-- Runs a chunk on a console. -/
def execute (con : Console) (settings : Settings) (c : Chunk) : IO (Except JobError Unit × Console) := do
  let m := con.machine.prepare settings c
  match Machine.entryPoint? c with
  | none => return (.error (.failure ⟨.noEntryPoint, none⟩), con.after m)
  | some main =>
    let ending ← drive c settings (m.start main) m.diagnostics
    let (result, m) := m.finish ending
    return (result.mapError .failure, con.after m)

/-- Prints what is on a console. -/
def flush (con : Console) : IO Unit := do
  (← IO.getStdout).write ⟨con.output⟩
  (← IO.getStdout).flush
  (← IO.getStderr).putStr con.errors

/-- Writes the file of a command that has come as far as its program. -/
def save (command : Command) (con : Console) : IO Unit := do
  match command.writes? with
  | none => return
  | some path =>
    match con.files.find? (Place.ofPath path) with
    | some (.file bytes) => IO.FS.writeBinFile path ⟨bytes⟩
    | _ => return

end Bytecode.Main

open Bytecode in
def main (args : List String) : IO UInt32 := do
  match Command.parse? args with
  | none =>
    (← IO.getStderr).putStr Command.usage
    return 2
  | some command =>
    let files ← Main.gather command
    match command.start { files := files } with
    | .ended (exit, con) =>
      Main.flush con
      return exit.toUInt32
    | .ready con settings c =>
      Main.save command con
      Main.flush con
      let (exit, con) := Command.conclude (← Main.execute { con with errors := "" } settings c)
      Main.flush con
      return exit.toUInt32
