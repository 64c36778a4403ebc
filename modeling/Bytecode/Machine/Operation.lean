import Bytecode.Heap
import Bytecode.Instr
import Bytecode.Machine.Operands
import Bytecode.Text.Scan

/-! What the operations do with the operands and the heap. -/

namespace Bytecode

/-- Integers wrap around, an integral quotient goes toward zero, and doubles follow their own arithmetic. -/
def Arith.apply (op : Arith) : Value → Value → Except Fault Value
  | .int a, .int b =>
    match op with
    | .add => .ok (.int (a + b))
    | .sub => .ok (.int (a - b))
    | .mul => .ok (.int (a * b))
    | .div => if b = 0 then .error .divisionByZero else .ok (.int (a / b))
  | .double a, .double b =>
    match op with
    | .add => .ok (.double (a + b))
    | .sub => .ok (.double (a - b))
    | .mul => .ok (.double (a * b))
    | .div => .ok (.double (a / b))
  | left, right => .error (.notApplicable op.mnemonic left.kind right.kind)

/-- The order of two doubles, if they have one. -/
def Double.compare? (a b : Float) : Option Ordering :=
  if a < b then some .lt else if b < a then some .gt else if a == b then some .eq else none

/-- The order of two values of one kind; texts are compared character by character. -/
def Value.compare? : Value → Value → Except Fault (Option Ordering)
  | .int a, .int b => .ok (some (compare a.toInt b.toInt))
  | .double a, .double b => .ok (Double.compare? a b)
  | .str a, .str b => .ok (some (compare a b))
  | .bool a, .bool b => .ok (some (compare a.toNat b.toNat))
  | left, right => .error (.notComparable left.kind right.kind)

/-- Whether two values in an order compare as asked; values without an order never do. -/
def Order.holds : Order → Option Ordering → Bool
  | _, none => false
  | .lt, some o => o.isLT
  | .le, some o => o.isLE
  | .gt, some o => o.isGT
  | .ge, some o => o.isGE

namespace Value

/-- An integer for a number or for the integer at the start of a text. -/
def toInt : Value → Except Fault Int64
  | .int n => .ok n
  | .double x => .ok (Double.truncate x)
  | .str s => (Text.intAtStart? s).elim (.error .notAnInt) .ok
  | v => .error (.expected .toInt v.kind)

/-- A double for a number or for the numeral at the start of a text. -/
def toDouble : Value → Except Fault Float
  | .int n => .ok (Double.ofInt n.toInt)
  | .double x => .ok x
  | .str s => (Text.doubleAtStart? s).elim (.error .notADouble) .ok
  | v => .error (.expected .toDouble v.kind)

/-- A text for a value that is not an object. -/
def toText : Value → Except Fault String
  | .object _ => .error (.expected .toText .object)
  | v => .ok v.text

end Value

/-- The character at a place of a text, as a text. -/
def charAt (s : String) (index : Int64) : Except Fault String :=
  if index < 0 then .error .charOutOfBounds
  else
    match s.toList[index.toInt.toNat]? with
    | some c => .ok (String.singleton c)
    | none => .error .charOutOfBounds

namespace Operation

/-- The operands after an operation, and the change that it makes to the heap if it makes one. -/
def apply (heap : Heap) (stack : Operands) : Operation → Except Fault (Operands × Option Change)
  | .push v => .ok (v :: stack, none)
  | .pop => do
    let (_, stack) ← stack.pop
    return (stack, none)
  | .dup => do
    let (v, _) ← stack.pop
    return (v :: stack, none)
  | .nop => .ok (stack, none)
  | .arith op => do
    let (right, stack) ← stack.popPresent
    let (left, stack) ← stack.popPresent
    let v ← op.apply left right
    return (v :: stack, none)
  | .and => do
    let (right, stack) ← stack.popBool
    let (left, stack) ← stack.popBool
    return (.bool (left && right) :: stack, none)
  | .or => do
    let (right, stack) ← stack.popBool
    let (left, stack) ← stack.popBool
    return (.bool (left || right) :: stack, none)
  | .not => do
    let (b, stack) ← stack.popBool
    return (.bool (!b) :: stack, none)
  | .order op => do
    let (right, stack) ← stack.popPresent
    let (left, stack) ← stack.popPresent
    let o ← left.compare? right
    return (.bool (op.holds o) :: stack, none)
  | .equal => do
    let (right, stack) ← stack.pop
    let (left, stack) ← stack.pop
    return (.bool (left.same right) :: stack, none)
  | .differ => do
    let (right, stack) ← stack.pop
    let (left, stack) ← stack.pop
    return (.bool (!left.same right) :: stack, none)
  | .textLength => do
    let (s, stack) ← stack.popString
    return (.int (Int64.ofNat s.length) :: stack, none)
  | .charAt => do
    let (s, stack) ← stack.popString
    let (index, stack) ← stack.popInt
    let c ← Bytecode.charAt s index
    return (.str c :: stack, none)
  | .concat => do
    let (right, stack) ← stack.popString
    let (left, stack) ← stack.popString
    return (.str (left ++ right) :: stack, none)
  | .toInt => do
    let (v, stack) ← stack.popPresent
    let n ← v.toInt
    return (.int n :: stack, none)
  | .toDouble => do
    let (v, stack) ← stack.popPresent
    let x ← v.toDouble
    return (.double x :: stack, none)
  | .toText => do
    let (v, stack) ← stack.popPresent
    let s ← v.toText
    return (.str s :: stack, none)
  | .newStruct => .ok (.object heap.nextId :: stack, some Heap.newStruct)
  | .addField field => do
    let (id, stack) ← stack.popObject
    let change ← heap.addField id field
    return (stack, some change)
  | .setField field => do
    let (v, stack) ← stack.pop
    let (id, stack) ← stack.popObject
    let change ← heap.setField id field v
    return (stack, some change)
  | .getField field => do
    let (id, stack) ← stack.popObject
    let v ← heap.getField id field
    return (v :: stack, none)
  | .newArray => do
    let (fill, stack) ← stack.pop
    let (length, stack) ← stack.popInt
    let change ← heap.newArray length fill
    return (.object heap.nextId :: stack, some change)
  | .arrayLength => do
    let (id, stack) ← stack.popObject
    let length ← heap.arrayLength id
    return (.int (Int64.ofNat length) :: stack, none)
  | .setIndex => do
    let (v, stack) ← stack.pop
    let (index, stack) ← stack.popInt
    let (id, stack) ← stack.popObject
    let change ← heap.setIndex id index v
    return (stack, some change)
  | .getIndex => do
    let (index, stack) ← stack.popInt
    let (id, stack) ← stack.popObject
    let v ← heap.getIndex id index
    return (v :: stack, none)
  | .newGrid => do
    let (fill, stack) ← stack.pop
    let (rows, stack) ← stack.popInt
    let (columns, stack) ← stack.popInt
    let change ← heap.newGrid rows columns fill
    return (.object heap.nextId :: stack, some change)
  | .setCell => do
    let (v, stack) ← stack.pop
    let (column, stack) ← stack.popInt
    let (row, stack) ← stack.popInt
    let (id, stack) ← stack.popObject
    let change ← heap.setCell id row column v
    return (stack, some change)
  | .getCell => do
    let (column, stack) ← stack.popInt
    let (row, stack) ← stack.popInt
    let (id, stack) ← stack.popObject
    let v ← heap.getCell id row column
    return (v :: stack, none)

end Operation

end Bytecode
