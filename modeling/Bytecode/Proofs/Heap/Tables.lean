import Bytecode.Heap
import Mathlib.Data.Set.Card

/-! The heap as tables. The shape of an object says whether it is a struct or an array, and of what length and how many
    columns; a change to the heap keeps the shapes of all objects and may add one behind them (`shapes_apply`). The numbers
    of the structs and those of the arrays make up a stretch of integers from the first number on. -/

namespace Bytecode

/-- What an object is allocated as. -/
inductive Shape where
  | struct
  | array (length : Nat) (columns : Option Nat)
  deriving DecidableEq, Repr

def Object.shape : Object → Shape
  | .struct _ => .struct
  | .array cells columns => .array cells.size columns

/-- The shape of the object that a change adds, if it adds one. -/
def Change.shape? : Change → Option Shape
  | .add o => some o.shape
  | _ => none

namespace Heap

/-- The shapes of the objects in the order of their allocation. -/
def shapes (h : Heap) : List Shape :=
  h.objects.toList.map Object.shape

/-- The shape of the object with a number. -/
def shape? (h : Heap) (id : Int64) : Option Shape :=
  (h.find? id).map Object.shape

/-- The numbers of the structs. -/
def structs (h : Heap) : Set Int64 :=
  {id | h.shape? id = some .struct}

/-- The numbers of the arrays. -/
def arrays (h : Heap) : Set Int64 :=
  {id | ∃ length columns, h.shape? id = some (.array length columns)}

variable {h : Heap} {id : Int64} {s : Shape}

theorem shape?_eq (h : Heap) (id : Int64) : h.shape? id = h.shapes[indexOf id]? := by
  simp [shape?, shapes, find?]

theorem length_shapes (h : Heap) : h.shapes.length = h.objectCount := by
  simp [shapes, objectCount]

theorem objectCount_congr {h' : Heap} (hshapes : h'.shapes = h.shapes) : h'.objectCount = h.objectCount := by
  rw [← length_shapes, hshapes, length_shapes]

/-! ### Changes -/

theorem refuses_apply (h : Heap) (c : Change) : (h.apply c).refuses = h.refuses := by
  cases c <;> rfl

theorem shapes_update {f : Object → Object} (hf : ∀ o, (f o).shape = o.shape) : (h.update id f).shapes = h.shapes := by
  refine List.ext_getElem? fun i => ?_
  simp only [shapes, update, List.getElem?_map, Array.toList_modify, List.getElem?_modify]
  split
  · cases h.objects.toList[i]? <;> simp [hf]
  · simp

theorem shape_putField (field : String) (v : Value) (o : Object) : (o.putField field v).shape = o.shape := by
  cases o <;> rfl

theorem shape_putCell (i : Nat) (v : Value) (o : Object) : (o.putCell i v).shape = o.shape := by
  cases o with
  | struct fields => rfl
  | array cells columns => simp [Object.putCell, Object.shape]

/-- A change keeps all objects as they were allocated, and may allocate one more. -/
theorem shapes_apply (h : Heap) (c : Change) : (h.apply c).shapes = h.shapes ++ c.shape?.toList := by
  cases c with
  | add o => simp [apply, shapes, Change.shape?]
  | setField id field v => exact (shapes_update (shape_putField field v)).trans (List.append_nil _).symm
  | setCell id i v => exact (shapes_update (shape_putCell i v)).trans (List.append_nil _).symm

/-! ### Numbers -/

theorem indexOf_ofNat (n : Nat) : indexOf (Int64.ofNat (firstId + n)) = n % 2 ^ 64 := by
  have hsub : Int64.ofNat (firstId + n) - Int64.ofNat firstId = Int64.ofNat n := by
    rw [Int64.ofNat_add, Int64.add_comm]
    exact Int64.add_sub_cancel _ _
  rw [indexOf, hsub]
  rfl

theorem ofNat_indexOf (id : Int64) : Int64.ofNat (firstId + indexOf id) = id := by
  have hback : Int64.ofNat (indexOf id) = id - Int64.ofNat firstId := by
    show (UInt64.ofNat (id - Int64.ofNat firstId).toUInt64.toNat).toInt64 = _
    rw [UInt64.ofNat_toNat]
    rfl
  rw [Int64.ofNat_add, hback, Int64.add_comm]
  exact Int64.sub_add_cancel _ _

/-- The next number is free for a new object. -/
theorem indexOf_nextId (hfew : h.objectCount < 2 ^ 64) : indexOf h.nextId = h.objectCount := by
  rw [nextId, indexOf_ofNat]
  exact Nat.mod_eq_of_lt hfew

/-! ### Objects by their numbers -/

theorem indexOf_inj {other : Int64} (heq : indexOf id = indexOf other) : id = other := by
  rw [← ofNat_indexOf id, heq, ofNat_indexOf]

theorem find?_update (h : Heap) (id other : Int64) (f : Object → Object) :
    (h.update id f).find? other = if other = id then (h.find? id).map f else h.find? other := by
  simp only [find?, update, Array.getElem?_modify]
  split
  · rename_i heq
    obtain rfl := indexOf_inj heq
    rw [if_pos rfl]
  · rename_i hne
    rw [if_neg fun heq => hne (congrArg indexOf heq.symm)]

theorem find?_add (hfew : h.objectCount < 2 ^ 64) (o : Object) (id : Int64) :
    (h.apply (.add o)).find? id = if id = h.nextId then some o else h.find? id := by
  have hnext : indexOf id = h.objects.size ↔ id = h.nextId := by
    rw [← objectCount, ← indexOf_nextId hfew]
    exact ⟨indexOf_inj, congrArg indexOf⟩
  simp only [find?, apply, Array.getElem?_push, hnext]

theorem find?_nextId (hfew : h.objectCount < 2 ^ 64) : h.find? h.nextId = none := by
  rw [find?, indexOf_nextId hfew]
  exact Array.getElem?_eq_none (Nat.le_refl _)

/-! ### Tables -/

theorem shape?_isSome_iff : (h.shape? id).isSome = true ↔ indexOf id < h.objectCount := by
  rw [shape?_eq, ← length_shapes]
  simp

theorem isSome_iff_mem : (h.shape? id).isSome = true ↔ id ∈ h.structs ∪ h.arrays := by
  show _ ↔ h.shape? id = some .struct ∨ ∃ length columns, h.shape? id = some (.array length columns)
  cases h.shape? id with
  | none => simp
  | some s => cases s <;> simp

theorem not_mem_arrays (hstruct : id ∈ h.structs) : id ∉ h.arrays := by
  rintro ⟨length, columns, harray⟩
  cases hstruct.symm.trans harray

end Heap
end Bytecode
