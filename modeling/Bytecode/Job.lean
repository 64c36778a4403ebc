import Bytecode.Files
import Bytecode.Listing
import Bytecode.Lowering
import Bytecode.Machine.Run
import Bytecode.Settings.Text
import Bytecode.Tree.Library

/-! Jobs: what can be done with the trees and settings in files, on the streams of a console. -/

namespace Bytecode

/-- Why a job failed. -/
inductive JobError where
  | file (path : String) (e : FileError)
  | tree (path : String)
  | settings (path : String)
  | lowering (e : Lowering.Error)
  | failure (f : Failure)

def JobError.message : JobError → String
  | .file path e => "failed to access " ++ path ++ ": " ++ e.message
  | .tree path => "invalid syntax tree in " ++ path ++ ": not the text of a program"
  | .settings path => "invalid config file " ++ path ++ ": not the text of settings"
  | .lowering e => "Code generation error: " ++ e.message
  | .failure f => "VM Error: " ++ f.message

namespace Machine

/-- The machine under settings, with a note on the size of the chunk that it is about to run if it is traced. -/
def prepare (m : Machine) (settings : Settings) (c : Chunk) : Machine :=
  { m with
    settings := settings
    diagnostics := if settings.trace then m.diagnostics.note (.start c.functions.length) else m.diagnostics }

/-- Runs a chunk under settings. -/
def execute? (m : Machine) (settings : Settings) (c : Chunk) (bound : Nat) :
    Option (Except JobError Unit × Machine) :=
  ((m.prepare settings c).run? c bound).map fun r => (r.1.mapError .failure, r.2)

/-- Lowers a program and runs it under settings. -/
def runProgram? (m : Machine) (settings : Settings) (p : Tree.Program) (bound : Nat) :
    Option (Except JobError Unit × Machine) :=
  match Lowering.lower p with
  | .error e => some (.error (.lowering e), m)
  | .ok c => m.execute? settings c bound

end Machine

namespace Files

/-- The program in a file. -/
def loadProgram (f : Files) (path : String) : Except JobError Tree.Program := do
  let text ← (f.readText path).mapError (.file path)
  match Tree.Program.parse? text with
  | some p => return p
  | none => throw (.tree path)

/-- The chunk of the program in a file. -/
def loadChunk (f : Files) (path : String) : Except JobError Chunk := do
  let p ← f.loadProgram path
  (Lowering.lower p).mapError .lowering

/-- The listing of the program in a file. -/
def listing (f : Files) (path : String) : Except JobError String := do
  let c ← f.loadChunk path
  return Listing.text c

/-- The settings in a file. -/
def loadSettings (f : Files) (path : String) : Except JobError Settings := do
  let text ← (f.readText path).mapError (.file path)
  match Settings.parse? text with
  | some s => return s
  | none => throw (.settings path)

/-- The files with settings saved in one of them. -/
def saveSettings (f : Files) (path : String) (s : Settings) : Except JobError Files :=
  (f.writeText path s.text).mapError (.file path)

end Files

/-- Where a listing goes before a program runs. -/
inductive ListingTarget where
  | nowhere
  | errors
  | file (path : String)

/-- The files and streams that a command works with. -/
structure Console where
  files : Files := {}
  input : Input := {}
  output : Array UInt8 := #[]
  errors : String := ""

namespace Console

/-- A new machine with the streams of a console. -/
def machine (con : Console) : Machine :=
  { input := con.input, output := { written := con.output } }

/-- The console after a machine has used its streams. -/
def after (con : Console) (m : Machine) : Console :=
  { con with input := m.input, output := m.output.written, errors := con.errors ++ m.diagnostics.text }

/-- Sends a listing to its target. -/
def sendListing (con : Console) (target : ListingTarget) (c : Chunk) : Except JobError Console :=
  match target with
  | .nowhere => .ok con
  | .errors => .ok { con with errors := con.errors ++ Listing.text c }
  | .file path => ((con.files.writeText path (Listing.text c)).mapError (.file path)).map ({ con with files := · })

/-- Loads the program in a file and sends its listing to its target. -/
def load (con : Console) (path : String) (target : ListingTarget) : Except JobError (Chunk × Console) := do
  let c ← con.files.loadChunk path
  let con ← con.sendListing target c
  return (c, con)

/-- Runs a chunk. -/
def execute? (con : Console) (settings : Settings) (c : Chunk) (bound : Nat) :
    Option (Except JobError Unit × Console) :=
  (con.machine.execute? settings c bound).map fun r => (r.1, con.after r.2)

/-- Runs the program in a file, after its listing has been sent to its target. -/
def runFile? (con : Console) (path : String) (settings : Settings) (target : ListingTarget) (bound : Nat) :
    Option (Except JobError Unit × Console) :=
  match con.load path target with
  | .error e => some (.error e, con)
  | .ok (c, con) => con.execute? settings c bound

/-- Runs a program. -/
def runProgram? (con : Console) (program : Tree.Program) (settings : Settings) (bound : Nat) :
    Option (Except JobError Unit × Console) :=
  (con.machine.runProgram? settings program bound).map fun r => (r.1, con.after r.2)

end Console

end Bytecode
