import Bytecode.Chunk
import Bytecode.Machine.Operation
import Bytecode.Stream

/-! Single steps of the machine. A state holds the frames of the active calls, the innermost first, with the heap and
    the streams that they share. -/

namespace Bytecode

/-- The frame of a call: its function, the index of the next instruction, its operands and its slots. -/
structure Frame where
  function : Function
  pc : Nat := 0
  stack : Operands := []
  locals : List Value := []

/-- The slots with one of them set; slots before it that were never set hold null. -/
def storeSlot (v : Value) : Nat → List Value → List Value
  | 0, [] => [v]
  | 0, _ :: rest => v :: rest
  | slot + 1, [] => .null :: storeSlot v slot []
  | slot + 1, x :: rest => x :: storeSlot v slot rest

/-- The state of a run. -/
structure State where
  frames : List Frame
  heap : Heap := {}
  input : Input := {}
  output : Output := {}

/-- What an instruction leads to. A fault keeps the state that the instruction leaves behind. -/
inductive Outcome where
  | running (s : State)
  | faulted (fault : Fault) (s : State)

namespace State

/-- The state with other frames. -/
def withFrames (s : State) (frames : List Frame) : State :=
  { s with frames := frames }

/-- The state after a change to the heap. -/
def change (s : State) : Option Change → State
  | none => s
  | some c => { s with heap := s.heap.apply c }

/-- The frame and the instruction that come next, with the frames of the callers. There is none if no call is active or
the innermost one has run past its code. -/
def next? (s : State) : Option (Frame × List Frame × Instr) :=
  match s.frames with
  | [] => none
  | f :: callers => (f.function.code[f.pc]?).map fun i => (f, callers, i)

/-- Calls a function: its arguments move from the operands of the caller to those of the callee, the first argument on
top. -/
def call (c : Chunk) (s : State) (f : Frame) (callers : List Frame) (name : String) : Outcome :=
  match c.get? name with
  | none => .faulted (.unknownFunction name) s
  | some g =>
    if f.stack.length < g.arity then .faulted (.missingArguments name g.arity f.stack.length) s
    else
      let callee : Frame := { function := g, stack := (f.stack.take g.arity).reverse }
      .running (s.withFrames (callee :: { f with stack := f.stack.drop g.arity } :: callers))

/-- Returns the top operand, or null if there is none, to the caller. -/
def leave (s : State) (f : Frame) (callers : List Frame) : Outcome :=
  let v := f.stack.head?.getD .null
  match callers with
  | [] => .running (s.withFrames [])
  | g :: rest => .running (s.withFrames ({ g with stack := v :: g.stack } :: rest))

/-- Executes an instruction in the innermost frame, whose index has been moved past it. -/
def exec (c : Chunk) (s : State) (f : Frame) (callers : List Frame) : Instr → Outcome
  | .op o =>
    match o.apply s.heap f.stack with
    | .ok (stack, change) => .running ((s.withFrames ({ f with stack := stack } :: callers)).change change)
    | .error fault => .faulted fault s
  | .load slot =>
    match f.locals[slot]? with
    | some v => .running (s.withFrames ({ f with stack := v :: f.stack } :: callers))
    | none => .faulted (.unsetSlot slot) s
  | .store slot =>
    match f.stack.pop with
    | .ok (v, stack) =>
      .running (s.withFrames ({ f with stack := stack, locals := storeSlot v slot f.locals } :: callers))
    | .error fault => .faulted fault s
  | .jump target => .running (s.withFrames ({ f with pc := target } :: callers))
  | .jumpUnless target =>
    match f.stack.popBool with
    | .ok (b, stack) =>
      .running (s.withFrames ({ f with pc := if b then f.pc else target, stack := stack } :: callers))
    | .error fault => .faulted fault s
  | .call name => call c s f callers name
  | .ret => leave s f callers
  | .write =>
    match f.stack.pop with
    | .ok (v, stack) =>
      match s.output.write v.text with
      | (.ok (), output) => .running { s with frames := { f with stack := stack } :: callers, output := output }
      | (.error reason, output) => .faulted (.writeFailed reason) { s with output := output }
    | .error fault => .faulted fault s
  | .read =>
    match s.input.readLine with
    | (.ok line, input) =>
      .running { s with frames := { f with stack := .str line :: f.stack } :: callers, input := input }
    | (.error reason, input) => .faulted (.readFailed reason) { s with input := input }

/-- Executes the next instruction. -/
def step (c : Chunk) (s : State) (f : Frame) (callers : List Frame) (i : Instr) : Outcome :=
  exec c s { f with pc := f.pc + 1 } callers i

end State

end Bytecode
