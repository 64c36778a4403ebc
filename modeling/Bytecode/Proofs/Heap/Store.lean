import Bytecode.Proofs.Heap.History

/-! The heap as tables that are worked on in place: one for the fields of the structs, one for the cells of the arrays and one
    for the numbers of columns, beside a counter. An action keeps what it has done when it comes to a fault, so that a fault
    between two writes would show. -/

namespace EStateM
variable {ε σ α β : Type} {act : EStateM ε σ α} {next : α → EStateM ε σ β} {s t : σ}

theorem bind_of_ok {a : α} (h : act s = .ok a t) : (act >>= next) s = next a t := by
  show EStateM.bind act next s = _
  rw [EStateM.bind, h]

theorem bind_of_error {e : ε} (h : act s = .error e t) : (act >>= next) s = .error e t := by
  show EStateM.bind act next s = _
  rw [EStateM.bind, h]

end EStateM

namespace Bytecode

/-- The number of the next object, and by the numbers of objects the fields of the structs, the cells of the arrays, and the
numbers of columns of the arrays with two dimensions. -/
structure Store where
  next : Int64 := Int64.ofNat Heap.firstId
  structs : Std.HashMap Int64 (Table Value) := {}
  arrays : Std.HashMap Int64 (Array Value) := {}
  strides : Std.HashMap Int64 Nat := {}

namespace Store
open Heap (Request Reply Call created?)

/-- How many objects there are. -/
def objectCount (t : Store) : Nat :=
  t.structs.size + t.arrays.size

/-- Works on the tables in place. What has been done before a fault stays. -/
abbrev Action := EStateM Fault Store

/-- Takes the next number. -/
def freshId : Action Int64 := do
  let t ← get
  set { t with next := t.next + 1 }
  return t.next

/-! ### Structs -/

def newStruct : Action Int64 := do
  let id ← freshId
  modify fun t => { t with structs := t.structs.insert id {} }
  return id

/-- The fields of a struct. -/
def fields (id : Int64) : Action (Table Value) := do
  match (← get).structs[id]? with
  | some fields => return fields
  | none => throw (.noStruct id)

def setField (id : Int64) (field : String) (v : Value) : Action Unit := do
  let fields ← fields id
  modify fun t => { t with structs := t.structs.insert id (fields.put field v) }

def addField (id : Int64) (field : String) : Action Unit :=
  setField id field .null

def getField (id : Int64) (field : String) : Action Value := do
  let fields ← fields id
  match fields.get? field with
  | some v => return v
  | none => throw (.noField id field)

/-! ### Arrays -/

/-- The cells of an array. -/
def cells (id : Int64) : Action (Array Value) := do
  match (← get).arrays[id]? with
  | some cells => return cells
  | none => throw (.noArray id)

/-- Equal cells, unless there is no memory for them. -/
def filled (refuses : Nat → Bool) (length : Nat) (fill : Value) : Action (Array Value) :=
  if refuses length then throw (.tooLong length) else return Array.replicate length fill

def newArray (refuses : Nat → Bool) (length : Int64) (fill : Value) : Action Int64 :=
  if length < 0 then throw (.negativeLength length)
  else do
    let cells ← filled refuses length.toInt.toNat fill
    let id ← freshId
    modify fun t => { t with arrays := t.arrays.insert id cells }
    return id

/-- The product of two numbers of a width in bits, if it has this width. -/
def checkedMul (width m n : Nat) : Option Nat :=
  if m * n < 2 ^ width then some (m * n) else none

/-- The sum of two numbers of a width in bits, if it has this width. -/
def checkedAdd (width m n : Nat) : Option Nat :=
  if m + n < 2 ^ width then some (m + n) else none

def newGrid (refuses : Nat → Bool) (rows columns : Int64) (fill : Value) : Action Int64 :=
  if rows < 0 ∨ columns < 0 then throw (.negativeGrid rows columns)
  else
    match checkedMul 63 rows.toInt.toNat columns.toInt.toNat with
    | none => throw (.gridTooLarge rows columns)
    | some length => do
      let cells ← filled refuses length fill
      let id ← freshId
      modify fun t => { t with arrays := t.arrays.insert id cells }
      modify fun t => { t with strides := t.strides.insert id columns.toInt.toNat }
      return id

def arrayLength (id : Int64) : Action Nat := do
  let cells ← cells id
  return cells.size

/-- The place of a cell among cells. -/
def cellIndex (length : Nat) (index : Int64) : Action Nat :=
  if index < 0 ∨ length ≤ index.toInt.toNat then throw .indexOutOfBounds else return index.toInt.toNat

def getIndex (id index : Int64) : Action Value := do
  let cells ← cells id
  let i ← cellIndex cells.size index
  return cells.getD i .null

def setIndex (id index : Int64) (v : Value) : Action Unit := do
  let cells ← cells id
  let i ← cellIndex cells.size index
  modify fun t => { t with arrays := t.arrays.insert id (cells.setIfInBounds i v) }

/-- The place of the cell in a row and a column among the cells of an array. -/
def gridIndex (id row column : Int64) : Action Nat := do
  let cells ← cells id
  match (← get).strides[id]? with
  | none => throw (.notGrid id)
  | some columns =>
    let outside := Fault.cellOutOfBounds row column columns
    if row < 0 ∨ column < 0 ∨ columns ≤ column.toInt.toNat then throw outside
    else
      match (checkedMul 64 row.toInt.toNat columns).bind (checkedAdd 64 · column.toInt.toNat) with
      | none => throw outside
      | some flat => if cells.size ≤ flat then throw outside else return flat

def getCell (id row column : Int64) : Action Value := do
  let flat ← gridIndex id row column
  let cells ← cells id
  return cells.getD flat .null

def setCell (id row column : Int64) (v : Value) : Action Unit := do
  let flat ← gridIndex id row column
  let cells ← cells id
  modify fun t => { t with arrays := t.arrays.insert id (cells.setIfInBounds flat v) }

/-! ### Calls -/

def answer (refuses : Nat → Bool) : Request → Action Reply
  | .newStruct => Reply.created <$> newStruct
  | .addField id field => (fun _ => .done) <$> addField id field
  | .setField id field v => (fun _ => .done) <$> setField id field v
  | .getField id field => Reply.value <$> getField id field
  | .newArray length fill => Reply.created <$> newArray refuses length fill
  | .newGrid rows columns fill => Reply.created <$> newGrid refuses rows columns fill
  | .arrayLength id => Reply.length <$> arrayLength id
  | .getIndex id index => Reply.value <$> getIndex id index
  | .setIndex id index v => (fun _ => .done) <$> setIndex id index v
  | .getCell id row column => Reply.value <$> getCell id row column
  | .setCell id row column v => (fun _ => .done) <$> setCell id row column v

/-- The reply to a call, and the tables as it leaves them. -/
def serve (t : Store) (c : Call) : Except Fault Reply × Store :=
  match answer c.refuses c.request t with
  | .ok reply t' => (.ok reply, t')
  | .error fault t' => (.error fault, t')

/-- The tables behind calls. -/
def after (t : Store) (calls : List Call) : Store :=
  calls.foldl (fun t c => (t.serve c).2) t

/-- The replies to calls. -/
def replies (t : Store) : List Call → List (Except Fault Reply)
  | [] => []
  | c :: rest => (t.serve c).1 :: replies (t.serve c).2 rest

end Store
end Bytecode
