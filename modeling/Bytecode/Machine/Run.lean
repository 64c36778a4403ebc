import Bytecode.Machine.Diagnostics

/-! Runs of the machine: from the entry point until no call is active, the code of the innermost call ends, or a fault.

A run is bounded by a number of instructions so that it is a total function; a run that reaches its end does so under
every larger bound as well. A machine keeps its heap, its streams and its counts from run to run. -/

namespace Bytecode

/-- How a run ended, with the state and the diagnostics it left behind. -/
structure Ending where
  result : Except Failure Unit
  state : State
  diagnostics : Diagnostics

/-- Executes instructions from a state until the run ends; nothing if the bound is reached first. -/
def State.run? (c : Chunk) (settings : Settings) : Nat → State → Diagnostics → Option Ending
  | 0, _, _ => none
  | bound + 1, s, d =>
    match s.next? with
    | none => some ⟨.ok (), s, d⟩
    | some (f, callers, i) =>
      let d := d.observe settings f callers i
      match s.step c f callers i with
      | .running s => State.run? c settings bound s d
      | .faulted fault s => some ⟨.error ⟨fault, some (f.site i)⟩, s, d⟩

/-- What a machine keeps from run to run. -/
structure Machine where
  heap : Heap := {}
  input : Input := {}
  output : Output := {}
  settings : Settings := {}
  diagnostics : Diagnostics := {}

namespace Machine

/-- The entry point of a chunk: its function `main`, which takes no arguments. -/
def entryPoint? (c : Chunk) : Option Function :=
  (c.get? "main").filter fun f => f.arity == 0

/-- The state at the start of a run. -/
def start (m : Machine) (main : Function) : State :=
  { frames := [{ function := main }], heap := m.heap, input := m.input, output := m.output }

/-- The machine after a run. -/
def resume (m : Machine) (s : State) (d : Diagnostics) : Machine :=
  { m with heap := s.heap, input := s.input, output := s.output, diagnostics := d }

/-- Ends a run: without a fault the output is flushed and the counts are reported. -/
def finish (m : Machine) (e : Ending) : Except Failure Unit × Machine :=
  match e.result with
  | .error failure => (.error failure, m.resume e.state e.diagnostics)
  | .ok () =>
    match e.state.output.flush with
    | .error reason => (.error ⟨.flushFailed reason, none⟩, m.resume e.state e.diagnostics)
    | .ok () => (.ok (), m.resume e.state (e.diagnostics.report m.settings))

/-- Runs a chunk; nothing if the run takes more instructions than the bound. -/
def run? (m : Machine) (c : Chunk) (bound : Nat) : Option (Except Failure Unit × Machine) :=
  match entryPoint? c with
  | none => some (.error ⟨.noEntryPoint, none⟩, m)
  | some main => (State.run? c m.settings bound (m.start main) m.diagnostics).map m.finish

end Machine

end Bytecode
