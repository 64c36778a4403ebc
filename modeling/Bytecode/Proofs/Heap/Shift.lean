import Bytecode.Proofs.Heap.References

/-! Objects above others. If a heap already has some objects, the objects that would have been the first ones get numbers
    that are higher by as many. Every operation on valid operands does the same above other objects as without them, with
    all numbers moved up, and it never touches the objects below. -/

namespace Bytecode

/-! ### Moving numbers up -/

def Value.shift (k : Nat) : Value → Value
  | .object id => .object (id + Int64.ofNat k)
  | v => v

def Operands.shift (k : Nat) (stack : Operands) : Operands :=
  stack.map (Value.shift k)

def Table.map {α : Type} (f : α → α) (t : Table α) : Table α :=
  ⟨t.entries.map fun e => (e.1, f e.2)⟩

def Object.shift (k : Nat) : Object → Object
  | .struct fields => .struct (fields.map (Value.shift k))
  | .array cells columns => .array (cells.map (Value.shift k)) columns

def Change.shift (k : Nat) : Change → Change
  | .add o => .add (o.shift k)
  | .setField id field v => .setField (id + Int64.ofNat k) field (v.shift k)
  | .setCell id i v => .setCell (id + Int64.ofNat k) i (v.shift k)

def Fault.shift (k : Nat) : Fault → Fault
  | .noStruct id => .noStruct (id + Int64.ofNat k)
  | .noField id field => .noField (id + Int64.ofNat k) field
  | .noArray id => .noArray (id + Int64.ofNat k)
  | .notGrid id => .notGrid (id + Int64.ofNat k)
  | fault => fault

/-- The heap with its objects above others. -/
def Heap.above (older : Array Object) (h : Heap) : Heap :=
  { h with objects := older ++ h.objects.map (Object.shift older.size) }

/-- The object that a change is to be made to is there. -/
def Change.Targets (h : Heap) : Change → Prop
  | .add _ => True
  | .setField id _ _ | .setCell id _ _ => h.Has id

/-- A fault keeps its kind when the number that it names is moved up. -/
theorem Fault.kind_shift (k : Nat) (fault : Fault) : (fault.shift k).kind = fault.kind := by
  cases fault <;> rfl

section
variable (k : Nat)

/-- Moving up all numbers makes no two values the same, and none different. -/
theorem Value.same_shift (v w : Value) : (v.shift k).same (w.shift k) = v.same w := by
  cases v <;> cases w <;> simp [Value.shift, Value.same]

theorem Table.get?_map {α : Type} (f : α → α) (t : Table α) (name : String) : (t.map f).get? name = (t.get? name).map f := by
  unfold Table.get? Table.map
  induction t.entries with
  | nil => rfl
  | cons e rest ih =>
    obtain ⟨other, value⟩ := e
    by_cases hname : other = name
    · simp [hname, getEntry?]
    · simpa [hname, getEntry?] using ih

/-- A value can be changed before or after it is put into a table. -/
theorem Table.map_put {α : Type} (f : α → α) (t : Table α) (name : String) (value : α) :
    (t.put name value).map f = (t.map f).put name (f value) := by
  unfold Table.put Table.map
  congr 1
  induction t.entries with
  | nil => rfl
  | cons e rest ih =>
    obtain ⟨other, old⟩ := e
    by_cases hname : other = name
    · simp [putEntry, hname]
    · simpa [putEntry, hname] using ih

theorem Object.shift_putField (field : String) (v : Value) (o : Object) :
    (o.putField field v).shift k = (o.shift k).putField field (v.shift k) := by
  cases o with
  | struct fields => exact congrArg Object.struct (Table.map_put _ fields field v)
  | array cells columns => rfl

theorem Object.shift_putCell (i : Nat) (v : Value) (o : Object) :
    (o.putCell i v).shift k = (o.shift k).putCell i (v.shift k) := by
  cases o with
  | struct fields => rfl
  | array cells columns => simp [Object.putCell, Object.shift]

end

/-! ### The heap above other objects -/

namespace Heap
variable {older : Array Object} {h : Heap} {id : Int64}

theorem refuses_above : (h.above older).refuses = h.refuses := rfl

/-- The next number is moved up like all the others. -/
theorem nextId_above : (h.above older).nextId = h.nextId + Int64.ofNat older.size := by
  have hsize : firstId + (h.above older).objects.size = firstId + h.objects.size + older.size := by
    simp [above]
    omega
  rw [nextId, nextId, hsize, Int64.ofNat_add]

section
variable (hfew : older.size + h.objectCount ≤ 2 ^ 64) (hid : h.Has id)
include hfew hid

theorem indexOf_above : indexOf (id + Int64.ofNat older.size) = older.size + indexOf id := by
  have hlt : indexOf id < h.objectCount := by simpa [length_shapes] using has_iff_lt.mp hid
  have hmoved : id + Int64.ofNat older.size = Int64.ofNat (firstId + (indexOf id + older.size)) := by
    rw [← Nat.add_assoc, Int64.ofNat_add, ofNat_indexOf]
  rw [hmoved, indexOf_ofNat, Nat.mod_eq_of_lt (by omega), Nat.add_comm]

/-- An object is found under its number moved up, with all that it refers to moved up too. -/
theorem find?_above : (h.above older).find? (id + Int64.ofNat older.size) = (h.find? id).map (Object.shift older.size) := by
  rw [find?, find?, indexOf_above hfew hid, above, Array.getElem?_append_right (Nat.le_add_right ..)]
  simp

/-- An update above other objects leaves these as they are. -/
theorem update_above {f g : Object → Object} (hf : ∀ o, (f o).shift older.size = g (o.shift older.size)) :
    (h.above older).update (id + Int64.ofNat older.size) g = (h.update id f).above older := by
  have hobjects : (older ++ h.objects.map (Object.shift older.size)).modify (older.size + indexOf id) g =
      older ++ (h.objects.modify (indexOf id) f).map (Object.shift older.size) := by
    refine Array.ext_getElem? fun i => ?_
    rcases Nat.lt_or_ge i older.size with hi | hi
    · rw [Array.getElem?_modify, if_neg (by omega), Array.getElem?_append_left hi, Array.getElem?_append_left hi]
    · obtain ⟨n, rfl⟩ := Nat.exists_eq_add_of_le hi
      simp only [Array.getElem?_modify, Array.getElem?_append_right hi, Array.getElem?_map, Nat.add_sub_cancel_left,
        Nat.add_left_cancel_iff]
      split
      · cases h.objects[n]? <;> simp [hf]
      · rfl
  unfold update
  rw [indexOf_above hfew hid]
  exact congrArg (fun objects => { objects := objects, refuses := h.refuses : Heap }) hobjects

end

/-- A change is made above other objects as without them, and leaves them as they are. -/
theorem apply_above (hfew : older.size + h.objectCount ≤ 2 ^ 64) {c : Change} (hc : c.Targets h) :
    (h.above older).apply (c.shift older.size) = (h.apply c).above older := by
  cases c with
  | add o => simp [apply, above, Change.shift]
  | setField id field v => exact update_above hfew hc (Object.shift_putField _ field v)
  | setCell id i v => exact update_above hfew hc (Object.shift_putCell _ i v)

end Heap

/-! ### Computations above other objects -/

/-- The second computation has the result of the first one moved up, with a property, or fails for the same cause. -/
def Mirrors {α : Type} (k : Nat) (Q : α → Prop) (move : α → α) : Except Fault α → Except Fault α → Prop
  | .ok a, y => y = .ok (move a) ∧ Q a
  | .error fault, y => y = .error (fault.shift k)

namespace Mirrors
variable {α β : Type} {k : Nat} {Q : α → Prop} {R : β → Prop} {move : α → α} {move' : β → β}

/-- Computations mirror each other if their parts do, one after the other. -/
theorem bind {x y : Except Fault α} {next next' : α → Except Fault β} (hx : Mirrors k Q move x y)
    (hnext : ∀ a, Q a → Mirrors k R move' (next a) (next' (move a))) :
    Mirrors k R move' (x >>= next) (y >>= next') := by
  cases x with
  | error fault =>
    cases hx
    rfl
  | ok a =>
    obtain ⟨rfl, ha⟩ := hx
    exact hnext a ha

theorem of_yields {h : Heap} {x y : Except Fault α} (hx : Yields h Q x)
    (hy : y = match x with | .ok a => .ok (move a) | .error fault => .error (fault.shift k)) : Mirrors k Q move x y := by
  cases x with
  | error fault => exact hy
  | ok a => exact ⟨hy, hx⟩

section
variable {h : Heap} {stack : Operands} (hstack : stack.Valid h)
include hstack

/-- The operand that is taken, and those that are left, are the shifted ones. -/
theorem pop : Mirrors k (fun r => r.1.Valid h ∧ Operands.Valid h r.2) (fun r => (r.1.shift k, r.2.shift k)) stack.pop
    (stack.shift k).pop := by
  refine of_yields (Yields.pop hstack) ?_
  cases stack <;> rfl

theorem popPresent : Mirrors k (fun r => r.1.Valid h ∧ Operands.Valid h r.2) (fun r => (r.1.shift k, r.2.shift k))
    stack.popPresent (stack.shift k).popPresent := by
  refine of_yields (Yields.popPresent hstack) ?_
  rcases stack with _ | ⟨v, rest⟩
  · rfl
  · cases v <;> rfl

theorem popInt : Mirrors k (fun r => Operands.Valid h r.2) (fun r => (r.1, r.2.shift k)) stack.popInt
    (stack.shift k).popInt := by
  refine of_yields (Yields.popInt hstack) ?_
  rcases stack with _ | ⟨v, rest⟩
  · rfl
  · cases v <;> rfl

theorem popBool : Mirrors k (fun r => Operands.Valid h r.2) (fun r => (r.1, r.2.shift k)) stack.popBool
    (stack.shift k).popBool := by
  refine of_yields (Yields.popBool hstack) ?_
  rcases stack with _ | ⟨v, rest⟩
  · rfl
  · cases v <;> rfl

theorem popString : Mirrors k (fun r => Operands.Valid h r.2) (fun r => (r.1, r.2.shift k)) stack.popString
    (stack.shift k).popString := by
  refine of_yields (Yields.popString hstack) ?_
  rcases stack with _ | ⟨v, rest⟩
  · rfl
  · cases v <;> rfl

theorem popObject : Mirrors k (fun r => h.Has r.1 ∧ Operands.Valid h r.2)
    (fun r => (r.1 + Int64.ofNat k, r.2.shift k)) stack.popObject (stack.shift k).popObject := by
  refine of_yields (Yields.popObject hstack) ?_
  rcases stack with _ | ⟨v, rest⟩
  · rfl
  · cases v <;> rfl

end

/-! Values -/

/-- Arithmetic never sees a number of an object but to refuse it. -/
theorem arith (op : Arith) (left right : Value) :
    Mirrors k (fun _ => True) (Value.shift k) (op.apply left right) (op.apply (left.shift k) (right.shift k)) := by
  cases left with
  | int a =>
    cases right with
    | int b =>
      cases op with
      | div =>
        by_cases hb : b = 0
        · simp [Arith.apply, Value.shift, Mirrors, Fault.shift, hb]
        · simp [Arith.apply, Value.shift, Mirrors, hb]
      | _ => exact ⟨rfl, trivial⟩
    | _ => rfl
  | double a =>
    cases right with
    | double b => cases op <;> exact ⟨rfl, trivial⟩
    | _ => rfl
  | _ => cases right <;> rfl

/-- What has nothing to do with numbers of objects. -/
theorem same {x : Except Fault α} (hx : ∀ fault, x = .error fault → fault.shift k = fault) :
    Mirrors k (fun _ => True) id x x := by
  cases x with
  | error fault => exact congrArg Except.error (hx fault rfl).symm
  | ok a => exact ⟨rfl, trivial⟩

theorem elim (o : Option α) {fault : Fault} (hfault : fault.shift k = fault) :
    Mirrors k (fun _ => True) id (o.elim (.error fault) .ok) (o.elim (.error fault) .ok) := by
  refine same fun fault' h => ?_
  cases o with
  | none =>
    cases h
    exact hfault
  | some a => cases h

theorem compare (left right : Value) :
    Mirrors k (fun _ => True) id (left.compare? right) ((left.shift k).compare? (right.shift k)) := by
  cases left <;> cases right <;> first | exact ⟨rfl, trivial⟩ | rfl

theorem toInt (v : Value) : Mirrors k (fun _ => True) id v.toInt (v.shift k).toInt := by
  cases v with
  | int n => exact ⟨rfl, trivial⟩
  | double x => exact ⟨rfl, trivial⟩
  | str s => exact elim _ rfl
  | _ => rfl

theorem toDouble (v : Value) : Mirrors k (fun _ => True) id v.toDouble (v.shift k).toDouble := by
  cases v with
  | int n => exact ⟨rfl, trivial⟩
  | double x => exact ⟨rfl, trivial⟩
  | str s => exact elim _ rfl
  | _ => rfl

theorem toText (v : Value) : Mirrors k (fun _ => True) id v.toText (v.shift k).toText := by
  cases v with
  | object id => rfl
  | _ => exact ⟨rfl, trivial⟩

theorem charAt (s : String) (index : Int64) :
    Mirrors k (fun _ => True) id (Bytecode.charAt s index) (Bytecode.charAt s index) := by
  refine same fun fault h => ?_
  unfold Bytecode.charAt at h
  split at h
  · cases h
    rfl
  · split at h
    · cases h
    · cases h
      rfl

/-! The heap -/

section
variable {h : Heap} {older : Array Object}

/-- An allocation is refused for want of room above other objects just if it is refused without them. -/
theorem newCells (length : Nat) (fill : Value) (columns : Option Nat) :
    Mirrors older.size (Change.Targets h) (Change.shift older.size) (h.newCells length fill columns)
      ((h.above older).newCells length (fill.shift older.size) columns) := by
  unfold Heap.newCells
  rw [Heap.refuses_above]
  split
  · rfl
  · exact ⟨by simp [Change.shift, Object.shift], trivial⟩

theorem newArray (length : Int64) (fill : Value) :
    Mirrors older.size (Change.Targets h) (Change.shift older.size) (h.newArray length fill)
      ((h.above older).newArray length (fill.shift older.size)) := by
  unfold Heap.newArray
  split
  · rfl
  · exact newCells _ fill none

theorem newGrid (rows columns : Int64) (fill : Value) :
    Mirrors older.size (Change.Targets h) (Change.shift older.size) (h.newGrid rows columns fill)
      ((h.above older).newGrid rows columns (fill.shift older.size)) := by
  unfold Heap.newGrid
  split
  · rfl
  · dsimp only
    split
    · rfl
    · exact newCells _ fill _

theorem cellIndex (cells : Array Value) (index : Int64) :
    Mirrors k (fun _ => True) (fun i => i) (Heap.cellIndex cells index)
      (Heap.cellIndex (cells.map (Value.shift k)) index) := by
  unfold Heap.cellIndex
  rw [Array.size_map]
  split
  · rfl
  · exact ⟨rfl, trivial⟩

/-- The place of a cell depends on the number of cells, not on what they hold. -/
theorem gridIndex (id : Int64) (cells : Array Value) (columns : Option Nat) (row column : Int64) :
    Mirrors k (fun _ => True) (fun i => i) (Heap.gridIndex id cells columns row column)
      (Heap.gridIndex (id + Int64.ofNat k) (cells.map (Value.shift k)) columns row column) := by
  unfold Heap.gridIndex
  cases columns with
  | none => rfl
  | some columns =>
    dsimp only
    rw [Array.size_map]
    split
    · rfl
    · exact ⟨rfl, trivial⟩

theorem cell (cells : Array Value) (i : Nat) :
    pure ((cells.map (Value.shift k)).getD i .null) = (.ok ((cells.getD i .null).shift k) : Except Fault Value) := by
  refine congrArg Except.ok ?_
  simp only [Array.getD_eq_getD_getElem?, Array.getElem?_map]
  cases cells[i]? <;> rfl

variable (hfew : older.size + h.objectCount ≤ 2 ^ 64) {id : Int64} (hid : h.Has id)
include hfew hid

/-- A struct is found, or the same number moved up is reported. -/
theorem fields : Mirrors older.size (fun _ => True) (Table.map (Value.shift older.size)) (h.fields id)
    ((h.above older).fields (id + Int64.ofNat older.size)) := by
  unfold Heap.fields
  rw [Heap.find?_above hfew hid]
  rcases hid.find? with ⟨fields, hfind⟩ | ⟨cells, columns, hfind⟩
  · rw [hfind]
    exact ⟨rfl, trivial⟩
  · rw [hfind]
    rfl

theorem cells : Mirrors older.size (fun _ => True) (fun r => (r.1.map (Value.shift older.size), r.2)) (h.cells id)
    ((h.above older).cells (id + Int64.ofNat older.size)) := by
  unfold Heap.cells
  rw [Heap.find?_above hfew hid]
  rcases hid.find? with ⟨fields, hfind⟩ | ⟨cells, columns, hfind⟩
  · rw [hfind]
    rfl
  · rw [hfind]
    exact ⟨rfl, trivial⟩

theorem setField (field : String) (v : Value) :
    Mirrors older.size (Change.Targets h) (Change.shift older.size) (h.setField id field v)
      ((h.above older).setField (id + Int64.ofNat older.size) field (v.shift older.size)) :=
  (fields hfew hid).bind fun _ _ => ⟨rfl, hid⟩

theorem getField (field : String) :
    Mirrors older.size (fun _ => True) (Value.shift older.size) (h.getField id field)
      ((h.above older).getField (id + Int64.ofNat older.size) field) := by
  refine (fields hfew hid).bind fun fields _ => ?_
  rw [Table.get?_map]
  cases fields.get? field with
  | none => rfl
  | some v => exact ⟨rfl, trivial⟩

theorem arrayLength :
    Mirrors older.size (fun _ => True) (fun n => n) (h.arrayLength id)
      ((h.above older).arrayLength (id + Int64.ofNat older.size)) :=
  (cells hfew hid).bind fun _ _ => ⟨congrArg Except.ok Array.size_map, trivial⟩

theorem getIndex (index : Int64) :
    Mirrors older.size (fun _ => True) (Value.shift older.size) (h.getIndex id index)
      ((h.above older).getIndex (id + Int64.ofNat older.size) index) :=
  (cells hfew hid).bind fun ⟨cells, _⟩ _ => (cellIndex cells index).bind fun i _ => ⟨cell cells i, trivial⟩

theorem setIndex (index : Int64) (v : Value) :
    Mirrors older.size (Change.Targets h) (Change.shift older.size) (h.setIndex id index v)
      ((h.above older).setIndex (id + Int64.ofNat older.size) index (v.shift older.size)) :=
  (cells hfew hid).bind fun ⟨cells, _⟩ _ => (cellIndex cells index).bind fun _ _ => ⟨rfl, hid⟩

theorem getCell (row column : Int64) :
    Mirrors older.size (fun _ => True) (Value.shift older.size) (h.getCell id row column)
      ((h.above older).getCell (id + Int64.ofNat older.size) row column) :=
  (cells hfew hid).bind fun ⟨cells, columns⟩ _ =>
    (gridIndex id cells columns row column).bind fun i _ => ⟨cell cells i, trivial⟩

theorem setCell (row column : Int64) (v : Value) :
    Mirrors older.size (Change.Targets h) (Change.shift older.size) (h.setCell id row column v)
      ((h.above older).setCell (id + Int64.ofNat older.size) row column (v.shift older.size)) :=
  (cells hfew hid).bind fun ⟨cells, columns⟩ _ =>
    (gridIndex id cells columns row column).bind fun _ _ => ⟨rfl, hid⟩

end

end Mirrors

/-! ### Operations -/

/-- What an operation leaves behind, moved up. -/
def shiftResult (k : Nat) (r : Operands × Option Change) : Operands × Option Change :=
  (r.1.shift k, r.2.map (Change.shift k))

/-- The change of an operation can be made. -/
def Workable (h : Heap) (r : Operands × Option Change) : Prop :=
  ∀ c ∈ r.2, c.Targets h

section
variable {h : Heap} {older : Array Object} {stack : Operands}

theorem workable_none (stack : Operands) : Workable h (stack, none) := by
  rintro c ⟨⟩

/-- A change that has a target can be made above other objects. -/
theorem workable_some {c : Change} (hc : c.Targets h) (stack : Operands) : Workable h (stack, some c) := by
  rintro c' ⟨⟩
  exact hc

theorem mirrors_value (k : Nat) (v : Value) (stack : Operands) :
    Mirrors k (Workable h) (shiftResult k) (.ok (v :: stack, none)) (.ok (v.shift k :: stack.shift k, none)) :=
  ⟨rfl, workable_none _⟩

/-- A new object gets the number above the other objects. -/
theorem mirrors_new {c : Change} (hc : c.Targets h) (stack : Operands) :
    Mirrors older.size (Workable h) (shiftResult older.size) (.ok (.object h.nextId :: stack, some c))
      (.ok (.object (h.above older).nextId :: stack.shift older.size, some (c.shift older.size))) := by
  rw [Heap.nextId_above]
  exact ⟨rfl, workable_some hc _⟩

/-- An operation on valid operands. -/
theorem Operation.apply_mirrors (hfew : older.size + h.objectCount ≤ 2 ^ 64) (hstack : stack.Valid h) {o : Operation}
    (ho : o.objectFree = true) :
    Mirrors older.size (Workable h) (shiftResult older.size) (o.apply h stack)
      (o.apply (h.above older) (stack.shift older.size)) := by
  unfold Operation.apply
  cases o with
  | push v =>
    cases v with
    | object id => cases ho
    | _ => exact mirrors_value _ _ stack
  | pop => exact (Mirrors.pop hstack).bind fun r _ => ⟨rfl, workable_none r.2⟩
  | dup => exact (Mirrors.pop hstack).bind fun r _ => mirrors_value _ r.1 stack
  | nop => exact ⟨rfl, workable_none stack⟩
  | arith op =>
    refine (Mirrors.popPresent hstack).bind fun ⟨right, _⟩ hright => ?_
    refine (Mirrors.popPresent hright.2).bind fun ⟨left, _⟩ hleft => ?_
    exact (Mirrors.arith op left right).bind fun v _ => mirrors_value _ v _
  | and | or =>
    refine (Mirrors.popBool hstack).bind fun _ hright => ?_
    exact (Mirrors.popBool hright).bind fun _ _ => mirrors_value _ _ _
  | not => exact (Mirrors.popBool hstack).bind fun _ _ => mirrors_value _ _ _
  | order op =>
    refine (Mirrors.popPresent hstack).bind fun ⟨right, _⟩ hright => ?_
    refine (Mirrors.popPresent hright.2).bind fun ⟨left, _⟩ hleft => ?_
    exact (Mirrors.compare left right).bind fun _ _ => mirrors_value _ _ _
  | equal | differ =>
    refine (Mirrors.pop hstack).bind fun ⟨right, _⟩ hright => ?_
    refine (Mirrors.pop hright.2).bind fun ⟨left, _⟩ hleft => ?_
    dsimp only
    -- Equality is the only operation that tells two references apart.
    rw [Value.same_shift]
    exact mirrors_value _ _ _
  | textLength => exact (Mirrors.popString hstack).bind fun _ _ => mirrors_value _ _ _
  | charAt =>
    refine (Mirrors.popString hstack).bind fun ⟨s, _⟩ hs => ?_
    refine (Mirrors.popInt hs).bind fun ⟨index, _⟩ hindex => ?_
    exact (Mirrors.charAt s index).bind fun _ _ => mirrors_value _ _ _
  | concat =>
    refine (Mirrors.popString hstack).bind fun _ hright => ?_
    exact (Mirrors.popString hright).bind fun _ _ => mirrors_value _ _ _
  | toInt =>
    refine (Mirrors.popPresent hstack).bind fun ⟨v, _⟩ hv => ?_
    exact (Mirrors.toInt v).bind fun _ _ => mirrors_value _ _ _
  | toDouble =>
    refine (Mirrors.popPresent hstack).bind fun ⟨v, _⟩ hv => ?_
    exact (Mirrors.toDouble v).bind fun _ _ => mirrors_value _ _ _
  | toText =>
    refine (Mirrors.popPresent hstack).bind fun ⟨v, _⟩ hv => ?_
    exact (Mirrors.toText v).bind fun _ _ => mirrors_value _ _ _
  | newStruct => exact mirrors_new (c := Heap.newStruct) trivial stack
  | addField field =>
    refine (Mirrors.popObject hstack).bind fun _ hid => ?_
    exact (Mirrors.setField hfew hid.1 field .null).bind fun _ hc => ⟨rfl, workable_some hc _⟩
  | setField field =>
    refine (Mirrors.pop hstack).bind fun ⟨v, _⟩ hv => ?_
    refine (Mirrors.popObject hv.2).bind fun _ hid => ?_
    exact (Mirrors.setField hfew hid.1 field v).bind fun _ hc => ⟨rfl, workable_some hc _⟩
  | getField field =>
    refine (Mirrors.popObject hstack).bind fun _ hid => ?_
    exact (Mirrors.getField hfew hid.1 field).bind fun _ _ => mirrors_value _ _ _
  | newArray =>
    refine (Mirrors.pop hstack).bind fun ⟨fill, _⟩ hfill => ?_
    refine (Mirrors.popInt hfill.2).bind fun ⟨length, _⟩ _ => ?_
    exact (Mirrors.newArray length fill).bind fun _ hc => mirrors_new hc _
  | arrayLength =>
    refine (Mirrors.popObject hstack).bind fun _ hid => ?_
    exact (Mirrors.arrayLength hfew hid.1).bind fun _ _ => mirrors_value _ _ _
  | setIndex =>
    refine (Mirrors.pop hstack).bind fun ⟨v, _⟩ hv => ?_
    refine (Mirrors.popInt hv.2).bind fun ⟨index, _⟩ hindex => ?_
    refine (Mirrors.popObject hindex).bind fun _ hid => ?_
    exact (Mirrors.setIndex hfew hid.1 index v).bind fun _ hc => ⟨rfl, workable_some hc _⟩
  | getIndex =>
    refine (Mirrors.popInt hstack).bind fun ⟨index, _⟩ hindex => ?_
    refine (Mirrors.popObject hindex).bind fun _ hid => ?_
    exact (Mirrors.getIndex hfew hid.1 index).bind fun _ _ => mirrors_value _ _ _
  | newGrid =>
    refine (Mirrors.pop hstack).bind fun ⟨fill, _⟩ hfill => ?_
    refine (Mirrors.popInt hfill.2).bind fun ⟨rows, _⟩ hrows => ?_
    refine (Mirrors.popInt hrows).bind fun ⟨columns, _⟩ _ => ?_
    exact (Mirrors.newGrid rows columns fill).bind fun _ hc => mirrors_new hc _
  | setCell =>
    refine (Mirrors.pop hstack).bind fun ⟨v, _⟩ hv => ?_
    refine (Mirrors.popInt hv.2).bind fun ⟨column, _⟩ hcolumn => ?_
    refine (Mirrors.popInt hcolumn).bind fun ⟨row, _⟩ hrow => ?_
    refine (Mirrors.popObject hrow).bind fun _ hid => ?_
    exact (Mirrors.setCell hfew hid.1 row column v).bind fun _ hc => ⟨rfl, workable_some hc _⟩
  | getCell =>
    refine (Mirrors.popInt hstack).bind fun ⟨column, _⟩ hcolumn => ?_
    refine (Mirrors.popInt hcolumn).bind fun ⟨row, _⟩ hrow => ?_
    refine (Mirrors.popObject hrow).bind fun _ hid => ?_
    exact (Mirrors.getCell hfew hid.1 row column).bind fun _ _ => mirrors_value _ _ _

end

end Bytecode
