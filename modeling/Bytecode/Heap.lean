import Bytecode.Fault
import Bytecode.Table

/-! The heap: structs with named fields, arrays and two-dimensional arrays. Objects are numbered in the order of their
    allocation from 2023 on and are never freed.

An operation that changes the heap comes in two parts: against the heap it is either refused with a fault or gives the
change to make, and making the change cannot fail. A new object gets the number that the heap had next. -/

namespace Bytecode

/-- An object of the heap. A two-dimensional array keeps its cells row by row and knows its number of columns. -/
inductive Object where
  | struct (fields : Table Value)
  | array (cells : Array Value) (columns : Option Nat)

namespace Object

/-- A struct with a field set, whether it had the field or not. -/
def putField (field : String) (v : Value) : Object → Object
  | .struct fields => .struct (fields.put field v)
  | o => o

/-- An array with the cell at a place set. -/
def putCell (i : Nat) (v : Value) : Object → Object
  | .array cells columns => .array (cells.setIfInBounds i v) columns
  | o => o

end Object

/-- A change to the heap. -/
inductive Change where
  | add (o : Object)
  | setField (id : Int64) (field : String) (v : Value)
  | setCell (id : Int64) (index : Nat) (v : Value)

/-- Whether a length is beyond a limit. -/
def beyond (limit length : Nat) : Bool :=
  decide (limit < length)

/-- The objects in the order of their allocation, and the lengths of arrays that there is no memory for. -/
structure Heap where
  objects : Array Object := #[]
  refuses : Nat → Bool := beyond (Nat.pow 2 26)

namespace Heap

/-- The number of the first object. -/
def firstId : Nat := 2023

/-- The number of the next object. -/
def nextId (h : Heap) : Int64 :=
  Int64.ofNat (firstId + h.objects.size)

/-- How many objects there are. -/
def objectCount (h : Heap) : Nat :=
  h.objects.size

/-- The place of an object among the objects. Numbers go around like all integers of programs. -/
def indexOf (id : Int64) : Nat :=
  (id - Int64.ofNat firstId).toUInt64.toNat

/-- The object with a number. -/
def find? (h : Heap) (id : Int64) : Option Object :=
  h.objects[indexOf id]?

/-- Changes the object with a number, if there is one. -/
def update (h : Heap) (id : Int64) (f : Object → Object) : Heap :=
  { h with objects := h.objects.modify (indexOf id) f }

/-- Makes a change. -/
def apply (h : Heap) : Change → Heap
  | .add o => { h with objects := h.objects.push o }
  | .setField id field v => h.update id (.putField field v)
  | .setCell id i v => h.update id (.putCell i v)

/-! ### Structs -/

/-- The fields of a struct. -/
def fields (h : Heap) (id : Int64) : Except Fault (Table Value) :=
  match h.find? id with
  | some (.struct fields) => .ok fields
  | _ => .error (.noStruct id)

/-- A new struct without fields. -/
def newStruct : Change :=
  .add (.struct {})

/-- Sets a field of a struct, whether the struct had it or not. -/
def setField (h : Heap) (id : Int64) (field : String) (v : Value) : Except Fault Change := do
  let _ ← h.fields id
  return .setField id field v

/-- Sets a field of a struct to null, whether the struct had it or not. -/
def addField (h : Heap) (id : Int64) (field : String) : Except Fault Change :=
  h.setField id field .null

def getField (h : Heap) (id : Int64) (field : String) : Except Fault Value := do
  let fields ← h.fields id
  match fields.get? field with
  | some v => return v
  | none => throw (.noField id field)

/-! ### Arrays -/

/-- The cells of an array, and its number of columns if it has two dimensions. -/
def cells (h : Heap) (id : Int64) : Except Fault (Array Value × Option Nat) :=
  match h.find? id with
  | some (.array cells columns) => .ok (cells, columns)
  | _ => .error (.noArray id)

/-- A new array of equal cells, unless there is no memory for its length. -/
def newCells (h : Heap) (length : Nat) (fill : Value) (columns : Option Nat) : Except Fault Change :=
  if h.refuses length then .error (.tooLong length)
  else .ok (.add (.array (Array.replicate length fill) columns))

/-- A new array with a length. -/
def newArray (h : Heap) (length : Int64) (fill : Value) : Except Fault Change :=
  if length < 0 then .error (.negativeLength length)
  else h.newCells length.toInt.toNat fill none

/-- A new two-dimensional array with a number of rows and of columns. -/
def newGrid (h : Heap) (rows columns : Int64) (fill : Value) : Except Fault Change :=
  if rows < 0 ∨ columns < 0 then .error (.negativeGrid rows columns)
  else
    let length := rows.toInt.toNat * columns.toInt.toNat
    if Nat.pow 2 63 ≤ length then .error (.gridTooLarge rows columns)
    else h.newCells length fill (some columns.toInt.toNat)

/-- The number of cells of an array. -/
def arrayLength (h : Heap) (id : Int64) : Except Fault Nat := do
  let (cells, _) ← h.cells id
  return cells.size

/-- The place of a cell among the cells of an array. -/
def cellIndex (cells : Array Value) (index : Int64) : Except Fault Nat :=
  if index < 0 ∨ cells.size ≤ index.toInt.toNat then .error .indexOutOfBounds else .ok index.toInt.toNat

def getIndex (h : Heap) (id index : Int64) : Except Fault Value := do
  let (cells, _) ← h.cells id
  let i ← cellIndex cells index
  return cells.getD i .null

def setIndex (h : Heap) (id index : Int64) (v : Value) : Except Fault Change := do
  let (cells, _) ← h.cells id
  let i ← cellIndex cells index
  return .setCell id i v

/-- The place of the cell in a row and a column among the cells of a two-dimensional array. -/
def gridIndex (id : Int64) (cells : Array Value) (columns : Option Nat) (row column : Int64) : Except Fault Nat :=
  match columns with
  | none => .error (.notGrid id)
  | some columns =>
    let index := row.toInt.toNat * columns + column.toInt.toNat
    if row < 0 ∨ column < 0 ∨ columns ≤ column.toInt.toNat ∨ cells.size ≤ index then
      .error (.cellOutOfBounds row column columns)
    else .ok index

def getCell (h : Heap) (id row column : Int64) : Except Fault Value := do
  let (cells, columns) ← h.cells id
  let i ← gridIndex id cells columns row column
  return cells.getD i .null

def setCell (h : Heap) (id row column : Int64) (v : Value) : Except Fault Change := do
  let (cells, columns) ← h.cells id
  let i ← gridIndex id cells columns row column
  return .setCell id i v

end Heap

end Bytecode
