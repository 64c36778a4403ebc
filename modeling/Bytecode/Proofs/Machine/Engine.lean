import Bytecode.Proofs.Heap.Store
import Bytecode.Proofs.Machine.Effect

/-! A machine that works in place. An instruction takes its operands one by one from the innermost frame, asks the tables of the
    heap and the streams, and leaves all of them as they are at the moment when it comes to a fault. Nothing is put back, so
    that an instruction which fails in the middle of its work would be found to have done a part of it. -/

namespace Bytecode

/-- What an instruction works on: the innermost frame, the tables of the heap and the streams. -/
structure Live where
  frame : Frame
  store : Store
  input : Input
  output : Output

namespace Live

def withStack (l : Live) (stack : Operands) : Live :=
  { l with frame := { l.frame with stack := stack } }

def withLocals (l : Live) (locals : List Value) : Live :=
  { l with frame := { l.frame with locals := locals } }

/-- Goes on at another index. -/
def goTo (l : Live) (target : Nat) : Live :=
  { l with frame := { l.frame with pc := target } }

end Live

/-- Executes an instruction or a part of one. What has been done before a fault stays. -/
abbrev Exec := EStateM Fault Live

namespace Exec

/-! ### Operands -/

def push (v : Value) : Exec Unit :=
  modify fun l => l.withStack (v :: l.frame.stack)

/-- Takes the top operand, which must be what is needed. An operand that is not is lost. -/
def popAs {α : Type} (need : Value → Except Fault α) : Exec α := do
  match (← get).frame.stack with
  | [] => throw .underflow
  | v :: rest =>
    modify (·.withStack rest)
    ofExcept (need v)

def pop : Exec Value :=
  popAs .ok

def popPresent : Exec Value :=
  popAs Value.needPresent

def popInt : Exec Int64 :=
  popAs Value.needInt

def popBool : Exec Bool :=
  popAs Value.needBool

def popString : Exec String :=
  popAs Value.needString

def popObject : Exec Int64 :=
  popAs Value.needObject

/-! ### The heap and the streams -/

/-- Works on the tables of the heap. -/
def onStore {α : Type} (act : Store.Action α) : Exec α := fun l =>
  match act l.store with
  | .ok a store => .ok a { l with store := store }
  | .error fault store => .error fault { l with store := store }

/-- Writes a text, or the part of it that there is room for. -/
def writeText (text : String) : Exec Unit := fun l =>
  match l.output.write text with
  | (.ok (), output) => .ok () { l with output := output }
  | (.error reason, output) => .error (.writeFailed reason) { l with output := output }

/-- Reads a line, or passes over one that is not a text. -/
def readLine : Exec String := fun l =>
  match l.input.readLine with
  | (.ok line, input) => .ok line { l with input := input }
  | (.error reason, input) => .error (.readFailed reason) { l with input := input }

/-! ### Instructions -/

/-- Executes an operation, at a time when there is no memory for arrays of some lengths. -/
def operate (refuses : Nat → Bool) : Operation → Exec Unit
  | .push v => push v
  | .pop => do
    let _ ← pop
  | .dup => do
    match (← get).frame.stack with
    | [] => throw .underflow
    | v :: _ => push v
  | .nop => return
  | .arith op => do
    let right ← popPresent
    let left ← popPresent
    let v ← ofExcept (op.apply left right)
    push v
  | .and => do
    let right ← popBool
    let left ← popBool
    push (.bool (left && right))
  | .or => do
    let right ← popBool
    let left ← popBool
    push (.bool (left || right))
  | .not => do
    let b ← popBool
    push (.bool (!b))
  | .order op => do
    let right ← popPresent
    let left ← popPresent
    let o ← ofExcept (left.compare? right)
    push (.bool (op.holds o))
  | .equal => do
    let right ← pop
    let left ← pop
    push (.bool (left.same right))
  | .differ => do
    let right ← pop
    let left ← pop
    push (.bool (!left.same right))
  | .textLength => do
    let s ← popString
    push (.int (Int64.ofNat s.length))
  | .charAt => do
    let s ← popString
    let index ← popInt
    let c ← ofExcept (Bytecode.charAt s index)
    push (.str c)
  | .concat => do
    let right ← popString
    let left ← popString
    push (.str (left ++ right))
  | .toInt => do
    let v ← popPresent
    let n ← ofExcept v.toInt
    push (.int n)
  | .toDouble => do
    let v ← popPresent
    let x ← ofExcept v.toDouble
    push (.double x)
  | .toText => do
    let v ← popPresent
    let s ← ofExcept v.toText
    push (.str s)
  | .newStruct => do
    let id ← onStore Store.newStruct
    push (.object id)
  | .addField field => do
    let id ← popObject
    onStore (Store.addField id field)
  | .setField field => do
    let v ← pop
    let id ← popObject
    onStore (Store.setField id field v)
  | .getField field => do
    let id ← popObject
    let v ← onStore (Store.getField id field)
    push v
  | .newArray => do
    let fill ← pop
    let length ← popInt
    let id ← onStore (Store.newArray refuses length fill)
    push (.object id)
  | .arrayLength => do
    let id ← popObject
    let length ← onStore (Store.arrayLength id)
    push (.int (Int64.ofNat length))
  | .setIndex => do
    let v ← pop
    let index ← popInt
    let id ← popObject
    onStore (Store.setIndex id index v)
  | .getIndex => do
    let index ← popInt
    let id ← popObject
    let v ← onStore (Store.getIndex id index)
    push v
  | .newGrid => do
    let fill ← pop
    let rows ← popInt
    let columns ← popInt
    let id ← onStore (Store.newGrid refuses rows columns fill)
    push (.object id)
  | .setCell => do
    let v ← pop
    let column ← popInt
    let row ← popInt
    let id ← popObject
    onStore (Store.setCell id row column v)
  | .getCell => do
    let column ← popInt
    let row ← popInt
    let id ← popObject
    let v ← onStore (Store.getCell id row column)
    push v

/-- What becomes of the frames behind an instruction: the innermost one goes on, another one is put on it, or it is taken away
and hands a value on. -/
inductive Control where
  | next
  | call (callee : Frame)
  | ret (v : Value)

/-- Executes an instruction in the innermost frame, whose index has been moved past it. -/
def execute (refuses : Nat → Bool) (c : Chunk) : Instr → Exec Control
  | .op o => do
    operate refuses o
    return .next
  | .load slot => do
    match (← get).frame.locals[slot]? with
    | some v =>
      push v
      return .next
    | none => throw (.unsetSlot slot)
  | .store slot => do
    let v ← pop
    modify fun l => l.withLocals (storeSlot v slot l.frame.locals)
    return .next
  | .jump target => do
    modify (·.goTo target)
    return .next
  | .jumpUnless target => do
    let b ← popBool
    modify fun l => if b then l else l.goTo target
    return .next
  | .call name => do
    match c.get? name with
    | none => throw (.unknownFunction name)
    | some g =>
      let stack := (← get).frame.stack
      if stack.length < g.arity then throw (.missingArguments name g.arity stack.length)
      else
        modify (·.withStack (stack.drop g.arity))
        return .call { function := g, stack := (stack.take g.arity).reverse }
  | .ret => do
    let stack := (← get).frame.stack
    modify (·.withStack stack.tail)
    return .ret (stack.head?.getD .null)
  | .write => do
    let v ← pop
    writeText v.text
    return .next
  | .read => do
    let line ← readLine
    push (.str line)
    return .next

end Exec

/-- The tables of the heap and the streams, the lengths of arrays that there is no memory for, and the frames of a run, if
there is one. -/
structure Engine where
  frames : List Frame := []
  store : Store := {}
  input : Input := {}
  output : Output := {}
  refuses : Nat → Bool := beyond (Nat.pow 2 26)

namespace Engine
open Exec

/-- The instruction that comes next. -/
def next? (e : Engine) : Option Execution :=
  State.next? { frames := e.frames }

/-- The engine with what an instruction has left behind. -/
def resume (e : Engine) (l : Live) (frames : List Frame) : Engine :=
  { e with frames := frames, store := l.store, input := l.input, output := l.output }

/-- What an instruction in the innermost frame works on. The index of the frame is moved past the instruction first. -/
def live (e : Engine) (f : Frame) : Live :=
  ⟨{ f with pc := f.pc + 1 }, e.store, e.input, e.output⟩

/-- Executes the next instruction. -/
def step (c : Chunk) (e : Engine) (f : Frame) (callers : List Frame) (i : Instr) : Except Fault Unit × Engine :=
  match execute e.refuses c i (e.live f) with
  | .ok .next l => (.ok (), e.resume l (l.frame :: callers))
  | .ok (.call callee) l => (.ok (), e.resume l (callee :: l.frame :: callers))
  | .ok (.ret v) l => (.ok (), e.resume l (deliver v callers))
  | .error fault l => (.error fault, e.resume l (l.frame :: callers))

/-- Executes instructions until the run ends; nothing if the bound is reached first. -/
def go? (c : Chunk) : Nat → Engine → Option (Except Failure Unit × Engine)
  | 0, _ => none
  | bound + 1, e =>
    match e.next? with
    | none => some (.ok (), e)
    | some (f, callers, i) =>
      match e.step c f callers i with
      | (.ok (), e) => go? c bound e
      | (.error fault, e) => some (.error ⟨fault, some (f.site i)⟩, e)

def start (e : Engine) (main : Function) : Engine :=
  { e with frames := [{ function := main }] }

/-- Ends a run: the frames are gone, and without a fault the output is flushed. -/
def finish : Except Failure Unit × Engine → Except Failure Unit × Engine
  | (.error failure, e) => (.error failure, { e with frames := [] })
  | (.ok (), e) =>
    match e.output.flush with
    | .error reason => (.error ⟨.flushFailed reason, none⟩, { e with frames := [] })
    | .ok () => (.ok (), { e with frames := [] })

/-- Runs a chunk; nothing if the run takes more instructions than the bound. -/
def run? (e : Engine) (c : Chunk) (bound : Nat) : Option (Except Failure Unit × Engine) :=
  match Machine.entryPoint? c with
  | none => some (.error ⟨.noEntryPoint, none⟩, e)
  | some main => ((e.start main).go? c bound).map finish

/-! ### Steps -/

section
variable {e : Engine} {c : Chunk} {f : Frame} {callers : List Frame} {i : Instr} {l : Live}

theorem step_of_next (hx : execute e.refuses c i (e.live f) = .ok .next l) :
    e.step c f callers i = (.ok (), e.resume l (l.frame :: callers)) := by
  rw [step, hx]

theorem step_of_error {fault : Fault} (hx : execute e.refuses c i (e.live f) = .error fault l) :
    e.step c f callers i = (.error fault, e.resume l (l.frame :: callers)) := by
  rw [step, hx]

theorem step_write_nil (hstack : f.stack = []) :
    e.step c f callers .write = (.error .underflow, e.resume (e.live f) ({ f with pc := f.pc + 1 } :: callers)) := by
  obtain ⟨function, pc, stack, locals⟩ := f
  obtain rfl : stack = [] := hstack
  rfl

theorem step_write {v : Value} {rest : Operands} (hstack : f.stack = v :: rest) :
    e.step c f callers .write =
      ((e.output.write v.text).1.mapError .writeFailed,
        { e with
          frames := { f with pc := f.pc + 1, stack := rest } :: callers
          output := (e.output.write v.text).2 }) := by
  obtain ⟨function, pc, stack, locals⟩ := f
  obtain rfl : stack = v :: rest := hstack
  have hx : execute e.refuses c .write (e.live ⟨function, pc, v :: rest, locals⟩) =
      (do writeText v.text; return .next : Exec Control) (e.live ⟨function, pc, rest, locals⟩) := rfl
  rw [step, hx]
  rcases hwrite : e.output.write v.text with ⟨reason | ⟨⟨⟩⟩, output⟩
  · have htext : writeText v.text (e.live ⟨function, pc, rest, locals⟩) =
        .error (.writeFailed reason) { e.live ⟨function, pc, rest, locals⟩ with output := output } := by
      simp only [writeText, live, hwrite]
    rw [EStateM.bind_of_error htext]
    rfl
  · have htext : writeText v.text (e.live ⟨function, pc, rest, locals⟩) =
        .ok () { e.live ⟨function, pc, rest, locals⟩ with output := output } := by
      simp only [writeText, live, hwrite]
    rw [EStateM.bind_of_ok htext]
    rfl

theorem step_read_error {reason : String} {input : Input} (hread : e.input.readLine = (.error reason, input)) :
    e.step c f callers .read =
      (.error (.readFailed reason), { e with frames := { f with pc := f.pc + 1 } :: callers, input := input }) := by
  have hline : readLine (e.live f) = .error (.readFailed reason) { e.live f with input := input } := by
    simp only [readLine, live, hread]
  rw [step_of_error (EStateM.bind_of_error hline)]
  rfl

theorem step_read_ok {line : String} {input : Input} (hread : e.input.readLine = (.ok line, input)) :
    e.step c f callers .read =
      (.ok (), { e with
        frames := { f with pc := f.pc + 1, stack := .str line :: f.stack } :: callers
        input := input }) := by
  have hline : readLine (e.live f) = .ok line { e.live f with input := input } := by
    simp only [readLine, live, hread]
  rw [step_of_next (EStateM.bind_of_ok hline)]
  rfl

end

/-! ### Runs -/

/-- An instruction comes next and leads to another state of the engine. -/
def Does (c : Chunk) (e : Engine) (x : Execution) (e' : Engine) : Prop :=
  e.next? = some x ∧ e.step c x.1 x.2.1 x.2.2 = (.ok (), e')

/-- Instructions, none of which fails, are executed at the start of a run of a chunk and lead to a state of the engine. -/
def Executes (e : Engine) (c : Chunk) (done : List Execution) (e' : Engine) : Prop :=
  ∃ main, Machine.entryPoint? c = some main ∧ Trail (Does c) done (e.start main) e'

end Engine
end Bytecode
