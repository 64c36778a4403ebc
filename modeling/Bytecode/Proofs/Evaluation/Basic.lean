import Bytecode.Lowering
import Bytecode.Proofs.Machine.Operands
import Bytecode.Stream

/-! Direct evaluation of programs, without code and without a machine. Variables live in lexical environments, a call
    evaluates the body of the function with nothing but its arguments, and operands are evaluated from left to right.

Evaluation is bounded by a number of calls inside each other and of rounds of each loop, so that it is a total function;
an evaluation that uses the number up is told apart from one that ends. -/

namespace Bytecode.Evaluation

/-- What all functions of a program work on: the heap and the streams. -/
structure World where
  heap : Heap
  input : Input
  output : Output

/-- The world after a change to the heap. -/
def World.change (w : World) : Option Change → World
  | none => w
  | some c => { w with heap := w.heap.apply c }

/-- How an evaluation comes out. -/
inductive Result (α : Type) where
  | done (a : α) (w : World)
  /-- A fault, with the function in which it arose if it arose in one. -/
  | failed (fault : Fault) (function : Option String) (w : World)
  /-- The bound is used up. -/
  | exhausted
  /-- The program has no meaning here: it cannot be lowered, or a call has the wrong number of arguments. -/
  | wrong

/-- An evaluation that works on the world. -/
def Effect (α : Type) : Type :=
  World → Result α

namespace Effect
variable {α β : Type}

/-- What comes behind an evaluation that is done. -/
def bind (x : Effect α) (k : α → Effect β) : Effect β := fun w =>
  match x w with
  | .done a w => k a w
  | .failed fault function w => .failed fault function w
  | .exhausted => .exhausted
  | .wrong => .wrong

instance : Monad Effect where
  pure a := fun w => .done a w
  bind := bind

theorem bind_pure (x : Effect α) : bind x (fun a w => .done a w) = x := by
  funext w
  unfold bind
  cases x w <;> rfl

theorem bind_bind {γ : Type} (x : Effect α) (y : α → Effect β) (z : β → Effect γ) :
    bind (bind x y) z = bind x fun a => bind (y a) z := by
  funext w
  unfold bind
  cases x w <;> rfl

instance : LawfulMonad Effect :=
  LawfulMonad.mk' Effect bind_pure (fun _ _ => rfl) bind_bind

def exhausted : Effect α := fun _ => .exhausted

def wrong : Effect α := fun _ => .wrong

/-- A value that must be there. -/
def ofOption : Option α → Effect α
  | some a => pure a
  | none => wrong

/-- Computes something from the heap, in a function, and changes the heap. -/
def compute (function : String) (x : Heap → Except Fault (α × Option Change)) : Effect α := fun w =>
  match x w.heap with
  | .ok (a, change) => .done a (w.change change)
  | .error fault => .failed fault (some function) w

/-- Computes something in a function without the heap. -/
def ofExcept (function : String) (x : Except Fault α) : Effect α :=
  compute function fun _ => do
    let a ← x
    return (a, none)

/-- Reads a line. -/
def readLine (function : String) : Effect Value := fun w =>
  match w.input.readLine with
  | (.ok line, input) => .done (.str line) { w with input := input }
  | (.error reason, input) => .failed (.readFailed reason) (some function) { w with input := input }

/-- Writes the text of a value. -/
def write (function : String) (v : Value) : Effect Unit := fun w =>
  match w.output.write v.text with
  | (.ok (), output) => .done () { w with output := output }
  | (.error reason, output) => .failed (.writeFailed reason) (some function) { w with output := output }

/-- Hands on what has been written, at the end of a program. -/
def flush : Effect Unit := fun w =>
  match w.output.flush with
  | .ok () => .done () w
  | .error reason => .failed (.flushFailed reason) none w

end Effect

/-- The variables of the open blocks with their values, the innermost block first and the latest variable of a block
first. -/
abbrev Env := List (List (String × Value))

namespace Env

/-- The value of a name: that of its latest variable in the innermost block that has one. -/
def find? (env : Env) (name : String) : Option Value :=
  env.findSome? fun block => block.lookup name

/-- Opens a block. -/
def enter (env : Env) : Env :=
  [] :: env

/-- Closes the innermost block; its variables are gone. -/
def leave (env : Env) : Env :=
  env.tail

/-- Adds a variable to the innermost block. -/
def declare (env : Env) (name : String) (v : Value) : Env :=
  match env with
  | [] => []
  | block :: rest => ((name, v) :: block) :: rest

/-- Gives the latest variable of a name in a block a new value. -/
def setIn (name : String) (v : Value) : List (String × Value) → List (String × Value)
  | [] => []
  | (other, old) :: rest => if name = other then (other, v) :: rest else (other, old) :: setIn name v rest

/-- Gives the variable that a name stands for a new value. -/
def set (name : String) (v : Value) : Env → Env
  | [] => []
  | block :: rest => if (block.lookup name).isSome then setIn name v block :: rest else block :: set name v rest

/-- The environment of a function that sees nothing but its arguments. -/
def ofArgs (params : List Tree.Variable) (args : List Value) : Env :=
  (params.zip args).foldl (fun env p => env.declare p.1.name p.2) [[]]

end Env

/-! ### Operators and functions that every program knows -/

/-- Arithmetic on two values; the right one is looked at first. -/
def arithmetic (op : Arith) (left right : Value) : Except Fault Value := do
  let right ← right.needPresent
  let left ← left.needPresent
  op.apply left right

/-- Comparison of two values; the right one is looked at first. -/
def comparison (op : Order) (left right : Value) : Except Fault Value := do
  let right ← right.needPresent
  let left ← left.needPresent
  let o ← left.compare? right
  return .bool (op.holds o)

/-- A connective on two truth values; the right one is looked at first. -/
def connective (op : Bool → Bool → Bool) (left right : Value) : Except Fault Value := do
  let right ← right.needBool
  let left ← left.needBool
  return .bool (op left right)

/-- The value of an operator. -/
def operatorValue : Tree.Operator → Value → Value → Except Fault Value
  | .add => arithmetic .add
  | .sub => arithmetic .sub
  | .mul => arithmetic .mul
  | .div => arithmetic .div
  | .eq => fun left right => .ok (.bool (left.same right))
  | .ne => fun left right => .ok (.bool (!left.same right))
  | .lt => comparison .lt
  | .le => comparison .le
  | .gt => comparison .gt
  | .ge => comparison .ge
  | .and => connective and
  | .or => connective or

/-- How many arguments a function that every program knows takes. -/
def builtinArity? : String → Option Nat
  | "print" => some 1
  | "input" => some 0
  | "get" => some 2
  | "length" => some 1
  | "length@array" => some 1
  | "to_string" => some 1
  | "to_int" => some 1
  | "to_double" => some 1
  | "concat" => some 2
  | _ => none

/-- The value of a function that every program knows, apart from the one that writes. -/
def builtinValue (function : String) : String → List Value → Effect Value
  | "input", [] => .readLine function
  | "get", [index, text] => .ofExcept function do
    let text ← text.needString
    let index ← index.needInt
    let c ← charAt text index
    return .str c
  | "length", [text] => .ofExcept function do
    let text ← text.needString
    return .int (Int64.ofNat text.length)
  | "length@array", [array] => .compute function fun heap => do
    let id ← array.needObject
    let length ← heap.arrayLength id
    return (.int (Int64.ofNat length), none)
  | "to_string", [v] => .ofExcept function do
    let v ← v.needPresent
    let text ← v.toText
    return .str text
  | "to_int", [v] => .ofExcept function do
    let v ← v.needPresent
    let n ← v.toInt
    return .int n
  | "to_double", [v] => .ofExcept function do
    let v ← v.needPresent
    let x ← v.toDouble
    return .double x
  | "concat", [left, right] => .ofExcept function do
    let right ← right.needString
    let left ← left.needString
    return .str (left ++ right)
  | _, _ => .wrong

/-! ### Fields and elements -/

def getField (function : String) (v : Value) (field : String) : Effect Value :=
  .compute function fun heap => do
    let id ← v.needObject
    let x ← heap.getField id field
    return (x, none)

def setField (function : String) (v : Value) (field : String) (x : Value) : Effect Unit :=
  .compute function fun heap => do
    let id ← v.needObject
    let change ← heap.setField id field x
    return ((), some change)

def addField (function : String) (v : Value) (field : String) : Effect Unit :=
  .compute function fun heap => do
    let id ← v.needObject
    let change ← heap.addField id field
    return ((), some change)

/-- Adds fields to a struct and sets them to null. -/
def addFields (function : String) (v : Value) : List String → Effect Unit
  | [] => pure ()
  | field :: rest => do
    addField function v field
    setField function v field .null
    addFields function v rest

/-- The values of the one or two indices of a subscript. -/
inductive Indices where
  | one (index : Value)
  | two (row column : Value)

def getElement (function : String) (v : Value) : Indices → Effect Value
  | .one index => .compute function fun heap => do
    let index ← index.needInt
    let id ← v.needObject
    let x ← heap.getIndex id index
    return (x, none)
  | .two row column => .compute function fun heap => do
    let column ← column.needInt
    let row ← row.needInt
    let id ← v.needObject
    let x ← heap.getCell id row column
    return (x, none)

def setElement (function : String) (v : Value) (x : Value) : Indices → Effect Unit
  | .one index => .compute function fun heap => do
    let index ← index.needInt
    let id ← v.needObject
    let change ← heap.setIndex id index x
    return ((), some change)
  | .two row column => .compute function fun heap => do
    let column ← column.needInt
    let row ← row.needInt
    let id ← v.needObject
    let change ← heap.setCell id row column x
    return ((), some change)

end Bytecode.Evaluation
