import Bytecode.Proofs.Heap.Tables
import Bytecode.Proofs.Machine.Operands

/-! References to objects. Values are valid in a heap that has the objects they refer to, and a heap is closed if all values
    in its objects are valid. A change with valid values keeps a heap closed and valid values valid, and every operation on
    valid operands leaves valid operands and makes such a change. If one fails for want of a struct, the object it was
    given is an array, and the other way around. -/

namespace Bytecode

/-- The number is that of a struct or of an array, and not of both. -/
def Heap.Has (h : Heap) (id : Int64) : Prop :=
  Xor (id ∈ h.structs) (id ∈ h.arrays)

/-- If the value refers to an object, the heap has it. -/
def Value.Valid (h : Heap) : Value → Prop
  | .object id => h.Has id
  | _ => True

/-- The object has the value in a field or in a cell. -/
def Object.Holds : Object → Value → Prop
  | .struct fields, v => ∃ field, fields.get? field = some v
  | .array cells _, v => v ∈ cells

def Heap.Closed (h : Heap) : Prop :=
  ∀ o ∈ h.objects, ∀ v, o.Holds v → v.Valid h

def Operands.Valid (h : Heap) (stack : Operands) : Prop :=
  ∀ v ∈ stack, v.Valid h

/-- The values that a change brings into a heap are valid in it. -/
def Change.Valid (h : Heap) : Change → Prop
  | .add o => ∀ v, o.Holds v → v.Valid h
  | .setField _ _ v | .setCell _ _ v => v.Valid h

/-- An object that is no struct is an array, and the other way around. -/
def Fault.Honest (h : Heap) : Fault → Prop
  | .noStruct id => id ∈ h.arrays
  | .noArray id => id ∈ h.structs
  | _ => True

namespace Heap
variable {h : Heap} {id : Int64} {c : Change} {v : Value}

/-- A number belongs to an object if and only if a shape is listed under it. -/
theorem has_iff : h.Has id ↔ (h.shape? id).isSome = true := by
  rw [isSome_iff_mem]
  constructor
  · rintro (⟨hstruct, -⟩ | ⟨harray, -⟩)
    · exact Or.inl hstruct
    · exact Or.inr harray
  · rintro (hstruct | harray)
    · exact Or.inl ⟨hstruct, not_mem_arrays hstruct⟩
    · exact Or.inr ⟨harray, fun hstruct => not_mem_arrays hstruct harray⟩

theorem has_iff_lt : h.Has id ↔ indexOf id < h.shapes.length := by
  rw [has_iff, shape?_isSome_iff, length_shapes]

/-- No change takes an object away. -/
theorem Has.apply (hid : h.Has id) (c : Change) : (h.apply c).Has id := by
  rw [has_iff_lt] at hid ⊢
  rw [shapes_apply, List.length_append]
  exact Nat.lt_add_right _ hid

theorem mem_of_find? {o : Object} (hfind : h.find? id = some o) : o ∈ h.objects :=
  Array.mem_of_getElem? hfind

theorem mem_structs_of_find? {fields : Table Value} (hfind : h.find? id = some (.struct fields)) : id ∈ h.structs := by
  show h.shape? id = _
  rw [shape?, hfind]
  rfl

theorem mem_arrays_of_find? {cells : Array Value} {columns : Option Nat} (hfind : h.find? id = some (.array cells columns)) :
    id ∈ h.arrays := by
  refine ⟨cells.size, columns, ?_⟩
  rw [shape?, hfind]
  rfl

/-- Every object is a struct or an array. -/
theorem Has.find? (hid : h.Has id) :
    (∃ fields, h.find? id = some (.struct fields)) ∨ ∃ cells columns, h.find? id = some (.array cells columns) := by
  rw [has_iff, shape?, Option.isSome_map, Option.isSome_iff_exists] at hid
  obtain ⟨o, ho⟩ := hid
  cases o with
  | struct fields => exact Or.inl ⟨fields, ho⟩
  | array cells columns => exact Or.inr ⟨cells, columns, ho⟩

/-- A new object gets the next number. Numbers that go around do no harm. -/
theorem has_nextId {s : Shape} (hs : c.shape? = some s) : (h.apply c).Has h.nextId := by
  rw [has_iff_lt, shapes_apply, hs, List.length_append, length_shapes, nextId, indexOf_ofNat]
  exact Nat.lt_succ_of_le (Nat.mod_le _ _)

end Heap

section
variable {h : Heap} {id : Int64} {c : Change} {v : Value} {o : Object} {stack : Operands}

/-- A reference that is valid stays so. -/
theorem Value.Valid.apply (hv : v.Valid h) (c : Change) : v.Valid (h.apply c) := by
  cases v with
  | object id => exact Heap.Has.apply hv c
  | _ => trivial

theorem Operands.Valid.apply (hstack : stack.Valid h) (c : Change) : stack.Valid (h.apply c) :=
  fun v hv => (hstack v hv).apply c

theorem Operands.Valid.cons (hv : v.Valid h) (hstack : stack.Valid h) : Operands.Valid h (v :: stack) :=
  List.forall_mem_cons.mpr ⟨hv, hstack⟩

/-- A struct whose field is set holds the value and what it has held before, nothing else. -/
theorem Object.Holds.of_putField {field : String} {w : Value} (hw : (o.putField field v).Holds w) : w = v ∨ o.Holds w := by
  cases o with
  | array cells columns => exact Or.inr hw
  | struct fields =>
    obtain ⟨field', hget⟩ := hw
    rw [Table.get?_put] at hget
    split at hget
    · cases hget
      exact Or.inl rfl
    · exact Or.inr ⟨field', hget⟩

theorem Object.Holds.of_putCell {i : Nat} {w : Value} (hw : (o.putCell i v).Holds w) : w = v ∨ o.Holds w := by
  cases o with
  | struct fields => exact Or.inr hw
  | array cells columns => exact (Array.mem_or_eq_of_mem_setIfInBounds hw).symm

/-- Whatever an update does, it does to objects that were there. -/
theorem Heap.mem_update {f : Object → Object} (ho : o ∈ (h.update id f).objects) :
    o ∈ h.objects ∨ ∃ o' ∈ h.objects, o = f o' := by
  obtain ⟨i, hi, rfl⟩ := Array.mem_iff_getElem.mp ho
  have hlt : i < h.objects.size := by simpa [update] using hi
  have hmem : h.objects[i] ∈ h.objects := Array.getElem_mem hlt
  simp only [update, Array.getElem_modify]
  split
  · exact Or.inr ⟨_, hmem, rfl⟩
  · exact Or.inl hmem

/-- A change that brings valid values keeps the heap closed. -/
theorem Heap.Closed.apply (hclosed : h.Closed) (hc : c.Valid h) : (h.apply c).Closed := by
  have hkept : ∀ o ∈ h.objects, ∀ w, o.Holds w → w.Valid (h.apply c) := fun o ho w hw => (hclosed o ho w hw).apply c
  intro o ho w hw
  cases c with
  | add o' =>
    rcases Array.mem_push.mp ho with ho | rfl
    · exact hkept o ho w hw
    · exact Value.Valid.apply (hc w hw) _
  | setField id field v =>
    rcases Heap.mem_update ho with ho | ⟨o', ho', rfl⟩
    · exact hkept o ho w hw
    · rcases hw.of_putField with rfl | hw
      · exact Value.Valid.apply hc _
      · exact hkept o' ho' w hw
  | setCell id i v =>
    rcases Heap.mem_update ho with ho | ⟨o', ho', rfl⟩
    · exact hkept o ho w hw
    · rcases hw.of_putCell with rfl | hw
      · exact Value.Valid.apply hc _
      · exact hkept o' ho' w hw

end

/-! ### Computations with references -/

/-- A computation gives only results with a property, and fails with honest faults only. -/
def Yields {α : Type} (h : Heap) (Q : α → Prop) : Except Fault α → Prop
  | .ok a => Q a
  | .error fault => fault.Honest h

namespace Yields
variable {α β : Type} {h : Heap} {Q : α → Prop} {R : β → Prop}

/-- The second part may rely on what the first one yields. -/
theorem bind {x : Except Fault α} {k : α → Except Fault β} (hx : Yields h Q x) (hk : ∀ a, Q a → Yields h R (k a)) :
    Yields h R (x >>= k) := by
  cases x with
  | error fault => exact hx
  | ok a => exact hk a hx

/-- A computation has a result of its kind, or it fails with an honest fault. -/
theorem cases {x : Except Fault α} (hx : Yields h Q x) :
    (∃ a, x = .ok a ∧ Q a) ∨ ∃ fault, x = .error fault ∧ fault.Honest h := by
  cases x with
  | error fault => exact Or.inr ⟨fault, rfl, hx⟩
  | ok a => exact Or.inl ⟨a, rfl, hx⟩

/-! The operands -/

section
variable {stack : Operands} (hstack : stack.Valid h)
include hstack

/-- Neither the operand that is taken nor those below it get out of date. -/
theorem pop : Yields h (fun r => r.1.Valid h ∧ Operands.Valid h r.2) stack.pop := by
  cases stack with
  | nil => trivial
  | cons v rest => exact List.forall_mem_cons.mp hstack

theorem popPresent : Yields h (fun r => r.1.Valid h ∧ Operands.Valid h r.2) stack.popPresent := by
  cases stack with
  | nil => trivial
  | cons v rest =>
    have hboth := List.forall_mem_cons.mp hstack
    cases v with
    | null => trivial
    | _ => exact hboth

theorem popInt : Yields h (fun r => Operands.Valid h r.2) stack.popInt := by
  cases stack with
  | nil => trivial
  | cons v rest =>
    cases v with
    | int n => exact (List.forall_mem_cons.mp hstack).2
    | _ => trivial

theorem popBool : Yields h (fun r => Operands.Valid h r.2) stack.popBool := by
  cases stack with
  | nil => trivial
  | cons v rest =>
    cases v with
    | bool b => exact (List.forall_mem_cons.mp hstack).2
    | _ => trivial

theorem popString : Yields h (fun r => Operands.Valid h r.2) stack.popString := by
  cases stack with
  | nil => trivial
  | cons v rest =>
    cases v with
    | str s => exact (List.forall_mem_cons.mp hstack).2
    | _ => trivial

theorem popObject : Yields h (fun r => h.Has r.1 ∧ Operands.Valid h r.2) stack.popObject := by
  cases stack with
  | nil => trivial
  | cons v rest =>
    cases v with
    | object id => exact List.forall_mem_cons.mp hstack
    | _ => trivial

end

/-! Values without references -/

theorem arith (op : Arith) (left right : Value) : Yields h (Value.Valid h) (op.apply left right) := by
  unfold Arith.apply
  split
  · cases op with
    | div =>
      dsimp only
      split <;> trivial
    | _ => trivial
  · cases op <;> trivial
  · trivial

theorem compare (left right : Value) : Yields h (fun _ => True) (left.compare? right) := by
  unfold Value.compare?
  split <;> trivial

theorem elim {x : Option α} {fault : Fault} (hfault : fault.Honest h) :
    Yields h (fun _ => True) (x.elim (.error fault) .ok) := by
  cases x with
  | none => exact hfault
  | some a => trivial

theorem toInt (v : Value) : Yields h (fun _ => True) v.toInt := by
  cases v with
  | str s => exact elim trivial
  | _ => trivial

theorem toDouble (v : Value) : Yields h (fun _ => True) v.toDouble := by
  cases v with
  | str s => exact elim trivial
  | _ => trivial

theorem toText (v : Value) : Yields h (fun _ => True) v.toText := by
  cases v <;> trivial

theorem charAt (s : String) (index : Int64) : Yields h (fun _ => True) (Bytecode.charAt s index) := by
  unfold Bytecode.charAt
  split
  · trivial
  · split <;> trivial

/-! The heap -/

section
variable {id : Int64} {v : Value}

/-- A struct is only looked up where there is an object, so that the fault is honest if it is an array. -/
theorem fields (hid : h.Has id) : Yields h (fun fields => Object.struct fields ∈ h.objects) (h.fields id) := by
  unfold Heap.fields
  rcases hid.find? with ⟨fields, hfind⟩ | ⟨cells, columns, hfind⟩
  · rw [hfind]
    exact Heap.mem_of_find? hfind
  · rw [hfind]
    exact Heap.mem_arrays_of_find? hfind

theorem cells (hid : h.Has id) : Yields h (fun r => Object.array r.1 r.2 ∈ h.objects) (h.cells id) := by
  unfold Heap.cells
  rcases hid.find? with ⟨fields, hfind⟩ | ⟨cells, columns, hfind⟩
  · rw [hfind]
    exact Heap.mem_structs_of_find? hfind
  · rw [hfind]
    exact Heap.mem_of_find? hfind

theorem setField (hid : h.Has id) (field : String) (hv : v.Valid h) :
    Yields h (Change.Valid h) (h.setField id field v) :=
  (fields hid).bind fun _ _ => hv

/-- What a struct of a closed heap holds is valid. -/
theorem getField (hclosed : h.Closed) (hid : h.Has id) (field : String) :
    Yields h (Value.Valid h) (h.getField id field) := by
  refine (fields hid).bind fun fields hmem => ?_
  cases hget : fields.get? field with
  | none => trivial
  | some v => exact hclosed _ hmem v ⟨field, hget⟩

/-- A new array is full of the value that was given, and the next number is its own. -/
theorem newCells (length : Nat) (hv : v.Valid h) (columns : Option Nat) :
    Yields h (fun c => Change.Valid h c ∧ (h.apply c).Has h.nextId) (h.newCells length v columns) := by
  unfold Heap.newCells
  split
  · trivial
  · refine ⟨fun w hw => ?_, Heap.has_nextId rfl⟩
    rw [Array.eq_of_mem_replicate hw]
    exact hv

theorem newArray (length : Int64) (hv : v.Valid h) :
    Yields h (fun c => Change.Valid h c ∧ (h.apply c).Has h.nextId) (h.newArray length v) := by
  unfold Heap.newArray
  split
  · trivial
  · exact newCells _ hv none

theorem newGrid (rows columns : Int64) (hv : v.Valid h) :
    Yields h (fun c => Change.Valid h c ∧ (h.apply c).Has h.nextId) (h.newGrid rows columns v) := by
  unfold Heap.newGrid
  split
  · trivial
  · dsimp only
    split
    · trivial
    · exact newCells _ hv _

theorem arrayLength (hid : h.Has id) : Yields h (fun _ => True) (h.arrayLength id) :=
  (cells hid).bind fun _ _ => trivial

/-- An index that is not refused lies within the array. -/
theorem cellIndex (cells : Array Value) (index : Int64) :
    Yields h (fun i => i < cells.size) (Heap.cellIndex cells index) := by
  unfold Heap.cellIndex
  split
  · trivial
  · rename_i hin
    exact Nat.lt_of_not_le fun hle => hin (Or.inr hle)

theorem gridIndex (id : Int64) (cells : Array Value) (columns : Option Nat) (row column : Int64) :
    Yields h (fun i => i < cells.size) (Heap.gridIndex id cells columns row column) := by
  unfold Heap.gridIndex
  split
  · trivial
  · dsimp only
    split
    · trivial
    · rename_i hin
      exact Nat.lt_of_not_le fun hle => hin (Or.inr (Or.inr (Or.inr hle)))

theorem cell (hclosed : h.Closed) {cells : Array Value} {columns : Option Nat} (hmem : .array cells columns ∈ h.objects)
    {i : Nat} (hi : i < cells.size) : (cells.getD i .null).Valid h := by
  refine hclosed _ hmem _ ?_
  rw [Array.getD_eq_getD_getElem?, Array.getElem?_eq_getElem hi]
  exact Array.getElem_mem hi

theorem getIndex (hclosed : h.Closed) (hid : h.Has id) (index : Int64) :
    Yields h (Value.Valid h) (h.getIndex id index) := by
  refine (cells hid).bind fun ⟨cells, columns⟩ hmem => ?_
  exact (cellIndex cells index).bind fun i hi => cell hclosed hmem hi

theorem setIndex (hid : h.Has id) (index : Int64) (hv : v.Valid h) :
    Yields h (Change.Valid h) (h.setIndex id index v) :=
  (cells hid).bind fun ⟨cells, _⟩ _ => (cellIndex cells index).bind fun _ _ => hv

theorem getCell (hclosed : h.Closed) (hid : h.Has id) (row column : Int64) :
    Yields h (Value.Valid h) (h.getCell id row column) := by
  refine (cells hid).bind fun ⟨cells, columns⟩ hmem => ?_
  exact (gridIndex id cells columns row column).bind fun i hi => cell hclosed hmem hi

theorem setCell (hid : h.Has id) (row column : Int64) (hv : v.Valid h) :
    Yields h (Change.Valid h) (h.setCell id row column v) :=
  (cells hid).bind fun ⟨cells, columns⟩ _ => (gridIndex id cells columns row column).bind fun _ _ => hv

end
end Yields

/-! ### Operations -/

/-- What an operation leaves behind: operands that are valid in the heap behind its change, which brings valid values. -/
def Settled (h : Heap) : Operands × Option Change → Prop
  | (stack, none) => stack.Valid h
  | (stack, some c) => c.Valid h ∧ stack.Valid (h.apply c)

section
variable {h : Heap} {stack : Operands}

theorem settled_change {c : Change} (hc : c.Valid h) (hstack : stack.Valid h) : Settled h (stack, some c) :=
  ⟨hc, hstack.apply c⟩

/-- The number of a new object is pushed when the object is there. -/
theorem settled_new {c : Change} (hc : c.Valid h ∧ (h.apply c).Has h.nextId) (hstack : stack.Valid h) :
    Settled h (.object h.nextId :: stack, some c) :=
  ⟨hc.1, .cons hc.2 (hstack.apply c)⟩

/-- An operation on valid operands and a closed heap. -/
theorem Operation.apply_yields (hclosed : h.Closed) (hstack : stack.Valid h) {o : Operation} (ho : o.objectFree = true) :
    Yields h (Settled h) (o.apply h stack) := by
  unfold Operation.apply
  -- Each operation takes operands that are valid, so that what it computes from them is.
  cases o with
  | push v =>
    have hv : v.Valid h := by
      cases v with
      | object id => cases ho
      | _ => trivial
    exact .cons hv hstack
  | pop => exact (Yields.pop hstack).bind fun _ hr => hr.2
  | dup => exact (Yields.pop hstack).bind fun _ hr => .cons hr.1 hstack
  | nop => exact hstack
  | arith op =>
    refine (Yields.popPresent hstack).bind fun ⟨right, _⟩ hright => ?_
    refine (Yields.popPresent hright.2).bind fun ⟨left, _⟩ hleft => ?_
    exact (Yields.arith op left right).bind fun _ hv => .cons hv hleft.2
  | and | or =>
    refine (Yields.popBool hstack).bind fun _ hright => ?_
    exact (Yields.popBool hright).bind fun _ hleft => .cons trivial hleft
  | not => exact (Yields.popBool hstack).bind fun _ hr => .cons trivial hr
  | order op =>
    refine (Yields.popPresent hstack).bind fun ⟨right, _⟩ hright => ?_
    refine (Yields.popPresent hright.2).bind fun ⟨left, _⟩ hleft => ?_
    exact (Yields.compare left right).bind fun _ _ => .cons trivial hleft.2
  | equal | differ =>
    refine (Yields.pop hstack).bind fun _ hright => ?_
    exact (Yields.pop hright.2).bind fun _ hleft => .cons trivial hleft.2
  | textLength => exact (Yields.popString hstack).bind fun _ hr => .cons trivial hr
  | charAt =>
    refine (Yields.popString hstack).bind fun ⟨s, _⟩ hs => ?_
    refine (Yields.popInt hs).bind fun ⟨index, _⟩ hindex => ?_
    exact (Yields.charAt s index).bind fun _ _ => .cons trivial hindex
  | concat =>
    refine (Yields.popString hstack).bind fun _ hright => ?_
    exact (Yields.popString hright).bind fun _ hleft => .cons trivial hleft
  | toInt =>
    refine (Yields.popPresent hstack).bind fun ⟨v, _⟩ hv => ?_
    exact (Yields.toInt v).bind fun _ _ => .cons trivial hv.2
  | toDouble =>
    refine (Yields.popPresent hstack).bind fun ⟨v, _⟩ hv => ?_
    exact (Yields.toDouble v).bind fun _ _ => .cons trivial hv.2
  | toText =>
    refine (Yields.popPresent hstack).bind fun ⟨v, _⟩ hv => ?_
    exact (Yields.toText v).bind fun _ _ => .cons trivial hv.2
  | newStruct =>
    have hnew : Heap.newStruct.Valid h := by
      rintro v ⟨field, hget⟩
      cases hget
    exact settled_new ⟨hnew, Heap.has_nextId (s := .struct) rfl⟩ hstack
  | addField field =>
    refine (Yields.popObject hstack).bind fun _ hid => ?_
    exact (Yields.setField (v := .null) hid.1 field trivial).bind fun _ hc => settled_change hc hid.2
  | setField field =>
    refine (Yields.pop hstack).bind fun _ hv => ?_
    refine (Yields.popObject hv.2).bind fun _ hid => ?_
    exact (Yields.setField hid.1 field hv.1).bind fun _ hc => settled_change hc hid.2
  | getField field =>
    refine (Yields.popObject hstack).bind fun _ hid => ?_
    exact (Yields.getField hclosed hid.1 field).bind fun _ hv => .cons hv hid.2
  | newArray =>
    refine (Yields.pop hstack).bind fun _ hfill => ?_
    refine (Yields.popInt hfill.2).bind fun ⟨length, _⟩ hrest => ?_
    exact (Yields.newArray length hfill.1).bind fun _ hc => settled_new hc hrest
  | arrayLength =>
    refine (Yields.popObject hstack).bind fun _ hid => ?_
    exact (Yields.arrayLength hid.1).bind fun _ _ => .cons trivial hid.2
  | setIndex =>
    refine (Yields.pop hstack).bind fun _ hv => ?_
    refine (Yields.popInt hv.2).bind fun ⟨index, _⟩ hindex => ?_
    refine (Yields.popObject hindex).bind fun _ hid => ?_
    exact (Yields.setIndex hid.1 index hv.1).bind fun _ hc => settled_change hc hid.2
  | getIndex =>
    refine (Yields.popInt hstack).bind fun ⟨index, _⟩ hindex => ?_
    refine (Yields.popObject hindex).bind fun _ hid => ?_
    exact (Yields.getIndex hclosed hid.1 index).bind fun _ hv => .cons hv hid.2
  | newGrid =>
    refine (Yields.pop hstack).bind fun _ hfill => ?_
    refine (Yields.popInt hfill.2).bind fun ⟨rows, _⟩ hrows => ?_
    refine (Yields.popInt hrows).bind fun ⟨columns, _⟩ hrest => ?_
    exact (Yields.newGrid rows columns hfill.1).bind fun _ hc => settled_new hc hrest
  | setCell =>
    refine (Yields.pop hstack).bind fun _ hv => ?_
    refine (Yields.popInt hv.2).bind fun ⟨column, _⟩ hcolumn => ?_
    refine (Yields.popInt hcolumn).bind fun ⟨row, _⟩ hrow => ?_
    refine (Yields.popObject hrow).bind fun _ hid => ?_
    exact (Yields.setCell hid.1 row column hv.1).bind fun _ hc => settled_change hc hid.2
  | getCell =>
    refine (Yields.popInt hstack).bind fun ⟨column, _⟩ hcolumn => ?_
    refine (Yields.popInt hcolumn).bind fun ⟨row, _⟩ hrow => ?_
    refine (Yields.popObject hrow).bind fun _ hid => ?_
    exact (Yields.getCell hclosed hid.1 row column).bind fun _ hv => .cons hv hid.2

end

end Bytecode
