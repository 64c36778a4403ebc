import Bytecode.Proofs.Heap.Store

/-! The tables and the objects of a heap. Tables represent a heap if they hold its objects, each in the tables for its kind.
    Every action gives on the tables what the heap gives, and leaves them unchanged or with the change made that the heap asks
    for (`Represents.answer`); so the tables represent the heap behind any calls (`Represents.after`). -/

namespace Bytecode

namespace Object

def fields? : Object → Option (Table Value)
  | .struct fields => some fields
  | .array _ _ => none

def cells? : Object → Option (Array Value)
  | .struct _ => none
  | .array cells _ => some cells

def columns? : Object → Option Nat
  | .struct _ => none
  | .array _ columns => columns

/-- What the tables for the kinds hold of an object determines it. -/
theorem find?_ext {o o' : Option Object} (hfields : o.bind fields? = o'.bind fields?) (hcells : o.bind cells? = o'.bind cells?)
    (hcolumns : o.bind columns? = o'.bind columns?) : o = o' := by
  rcases o with _ | (fields | ⟨cells, columns⟩) <;> rcases o' with _ | (fields' | ⟨cells', columns'⟩) <;>
    simp_all [fields?, cells?, columns?]

end Object

namespace Change

/-- An array that is added is not longer than an integer. -/
def Short : Change → Prop
  | .add o => ∀ cells, o.cells? = some cells → cells.size < 2 ^ 63
  | _ => True

variable {h : Heap} {id : Int64} {fill v : Value} {c : Change}

theorem short_newStruct : Short Heap.newStruct := by
  rintro cells ⟨⟩

/-- No array is longer than an integer can say. -/
theorem short_newCells {length : Nat} {columns : Option Nat} (hlt : length < 2 ^ 63)
    (hc : h.newCells length fill columns = .ok c) : c.Short := by
  unfold Heap.newCells at hc
  split at hc
  · cases hc
  · cases hc
    rintro cells ⟨⟩
    simpa using hlt

theorem short_newArray {length : Int64} (hc : h.newArray length fill = .ok c) : c.Short := by
  unfold Heap.newArray at hc
  split at hc
  · cases hc
  · refine short_newCells ?_ hc
    have hlt := length.toInt_lt
    omega

theorem short_newGrid {rows columns : Int64} (hc : h.newGrid rows columns fill = .ok c) : c.Short := by
  unfold Heap.newGrid at hc
  split at hc
  · cases hc
  · dsimp only at hc
    split at hc
    · cases hc
    · exact short_newCells (Nat.lt_of_not_le ‹_›) hc

theorem short_setField {field : String} (hc : h.setField id field v = .ok c) : c.Short := by
  obtain ⟨_, -, ⟨⟩⟩ := Except.bind_eq_ok_iff.mp hc
  trivial

theorem short_setIndex {index : Int64} (hc : h.setIndex id index v = .ok c) : c.Short := by
  obtain ⟨_, -, hc⟩ := Except.bind_eq_ok_iff.mp hc
  obtain ⟨_, -, ⟨⟩⟩ := Except.bind_eq_ok_iff.mp hc
  trivial

theorem short_setCell {row column : Int64} (hc : h.setCell id row column v = .ok c) : c.Short := by
  obtain ⟨_, -, hc⟩ := Except.bind_eq_ok_iff.mp hc
  obtain ⟨_, -, ⟨⟩⟩ := Except.bind_eq_ok_iff.mp hc
  trivial

end Change

namespace Store
open Heap (Request Reply Call created?)

/-- The tables hold the objects of a heap, each of them in the tables for its kind. No array is longer than an integer. -/
structure Represents (t : Store) (h : Heap) : Prop where
  next : t.next = h.nextId
  count : t.objectCount = h.objectCount
  structs : ∀ id : Int64, t.structs[id]? = (h.find? id).bind Object.fields?
  arrays : ∀ id : Int64, t.arrays[id]? = (h.find? id).bind Object.cells?
  strides : ∀ id : Int64, t.strides[id]? = (h.find? id).bind Object.columns?
  short : ∀ (id : Int64) (cells : Array Value), t.arrays[id]? = some cells → cells.size < 2 ^ 63

/-- Makes a change in the tables. -/
def apply (t : Store) : Change → Store
  | .add (.struct fields) => { t with next := t.next + 1, structs := t.structs.insert t.next fields }
  | .add (.array cells none) => { t with next := t.next + 1, arrays := t.arrays.insert t.next cells }
  | .add (.array cells (some columns)) =>
    { t with
      next := t.next + 1
      arrays := t.arrays.insert t.next cells
      strides := t.strides.insert t.next columns }
  | .setField id field v =>
    match t.structs[id]? with
    | some fields => { t with structs := t.structs.insert id (fields.put field v) }
    | none => t
  | .setCell id i v =>
    match t.arrays[id]? with
    | some cells => { t with arrays := t.arrays.insert id (cells.setIfInBounds i v) }
    | none => t

/-- Gives a result that is known and makes a change, or comes to a fault and leaves the tables as they are. -/
def known {α : Type} (x : Except Fault (α × Option Change)) : Action α :=
  fun t => match x with
    | .ok (a, change) => .ok a (change.elim t t.apply)
    | .error fault => .error fault t

/-- Gives a result that is known, and leaves the tables as they are. -/
def reads {α : Type} (x : Except Fault α) : Action α :=
  known ((·, none) <$> x)

/-- Makes a change that is known, if it is not refused. -/
def makes (x : Except Fault Change) : Action Unit :=
  known ((fun c => ((), some c)) <$> x)

/-! ### Actions -/

section
variable {α β : Type} {t : Store} {h : Heap} {act : Action α} {next : α → Action β}

/-- An action that only reads goes on with the tables as they were. -/
theorem bind_of_reads {γ : Type} {f : γ → α} {x : Except Fault γ} {k : γ → Except Fault (β × Option Change)}
    (hact : act t = reads (f <$> x) t) (hnext : ∀ a, x = .ok a → next (f a) t = known (k a) t) :
    (act >>= next) t = known (x >>= k) t := by
  cases x with
  | error fault => exact EStateM.bind_of_error hact
  | ok a => exact (EStateM.bind_of_ok hact).trans (hnext a rfl)

theorem reads_bind {γ : Type} {f : γ → α} {x : Except Fault γ} {k : γ → Except Fault β} (hact : act t = reads (f <$> x) t)
    (hnext : ∀ a, x = .ok a → next (f a) t = reads (k a) t) : (act >>= next) t = reads (x >>= k) t := by
  rw [reads, map_bind]
  exact bind_of_reads hact hnext

/-- Checks that only read come before the change. -/
theorem makes_bind {γ : Type} {f : γ → α} {next : α → Action Unit} {x : Except Fault γ} {k : γ → Except Fault Change}
    (hact : act t = reads (f <$> x) t) (hnext : ∀ a, x = .ok a → next (f a) t = makes (k a) t) :
    (act >>= next) t = makes (x >>= k) t := by
  rw [makes, map_bind]
  exact bind_of_reads hact hnext

theorem map_of_known {x : Except Fault (α × Option Change)} (f : α → β) (hact : act t = known x t) :
    (f <$> act) t = known ((fun r => (f r.1, r.2)) <$> x) t := by
  show EStateM.map f act t = _
  rw [EStateM.map, hact]
  cases x <;> rfl

theorem map_of_reads {x : Except Fault α} (f : α → β) (hact : act t = reads x t) :
    (f <$> act) t = known ((fun a => (f a, none)) <$> x) t :=
  (map_of_known f hact).trans (by cases x <;> rfl)

theorem map_of_makes {act : Action Unit} {x : Except Fault Change} (b : β) (hact : act t = makes x t) :
    ((fun _ => b) <$> act) t = known ((fun c => (b, some c)) <$> x) t :=
  (map_of_known _ hact).trans (by cases x <;> rfl)

/-- The checked product and sum are there if and only if the offset is a 64-bit number. -/
theorem checked_offset (m n k : Nat) :
    (checkedMul 64 m n).bind (checkedAdd 64 · k) = if m * n + k < 2 ^ 64 then some (m * n + k) else none := by
  unfold checkedMul checkedAdd
  split
  · rfl
  · rw [if_neg (by omega)]
    rfl

theorem cellIndex_eq (cells : Array Value) (index : Int64) (t : Store) :
    cellIndex cells.size index t = reads ((fun i => i) <$> Heap.cellIndex cells index) t := by
  unfold cellIndex Heap.cellIndex
  split <;> rfl

namespace Represents

section
variable (hrep : t.Represents h) (id : Int64)
include hrep

/-- A struct is in its own table. -/
theorem fields : Store.fields id t = reads ((fun fields => fields) <$> h.fields id) t := by
  show (match t.structs[id]? with | some fields => pure fields | none => throw (.noStruct id) : Action _) t = _
  rw [hrep.structs, Heap.fields]
  cases h.find? id with
  | none => rfl
  | some o => cases o <;> rfl

theorem getElem?_structs {fields : Table Value} (hfields : h.fields id = .ok fields) : t.structs[id]? = some fields := by
  rw [hrep.structs]
  unfold Heap.fields at hfields
  split at hfields
  · rename_i hfind
    cases hfields
    rw [hfind]
    rfl
  · cases hfields

theorem getField (field : String) : Store.getField id field t = reads (h.getField id field) t := by
  refine reads_bind (hrep.fields id) fun fields _ => ?_
  cases fields.get? field <;> rfl

theorem setField (field : String) (v : Value) : Store.setField id field v t = makes (h.setField id field v) t := by
  refine makes_bind (hrep.fields id) fun fields hfields => ?_
  show EStateM.Result.ok () _ = EStateM.Result.ok () (t.apply (.setField id field v))
  simp only [Store.apply, hrep.getElem?_structs id hfields]

theorem cells : Store.cells id t = reads (Prod.fst <$> h.cells id) t := by
  show (match t.arrays[id]? with | some cells => pure cells | none => throw (.noArray id) : Action _) t = _
  rw [hrep.arrays, Heap.cells]
  cases h.find? id with
  | none => rfl
  | some o => cases o <;> rfl

theorem cells_of_ok {r : Array Value × Option Nat} (hcells : h.cells id = .ok r) : Store.cells id t = .ok r.1 t := by
  rw [hrep.cells, hcells]
  rfl

/-- Both the cells of an array and its columns are under its number, each in its table. -/
theorem getElem?_arrays {cells : Array Value} {columns : Option Nat} (hcells : h.cells id = .ok (cells, columns)) :
    t.arrays[id]? = some cells ∧ t.strides[id]? = columns := by
  rw [hrep.arrays, hrep.strides]
  unfold Heap.cells at hcells
  split at hcells
  · rename_i hfind
    cases hcells
    rw [hfind]
    exact ⟨rfl, rfl⟩
  · cases hcells

theorem arrayLength : Store.arrayLength id t = reads (h.arrayLength id) t :=
  reads_bind (hrep.cells id) fun _ _ => rfl

theorem getIndex (index : Int64) : Store.getIndex id index t = reads (h.getIndex id index) t := by
  refine reads_bind (hrep.cells id) fun r _ => reads_bind (cellIndex_eq r.1 index t) fun i _ => rfl

theorem setIndex (index : Int64) (v : Value) : Store.setIndex id index v t = makes (h.setIndex id index v) t := by
  refine makes_bind (hrep.cells id) fun r hcells => makes_bind (cellIndex_eq r.1 index t) fun i _ => ?_
  show EStateM.Result.ok () _ = EStateM.Result.ok () (t.apply (.setCell id i v))
  simp only [Store.apply, (hrep.getElem?_arrays id hcells).1]

/-- No index overflows before it is found to be beyond the end, since no array is so long. -/
theorem gridIndex (row column : Int64) {cells : Array Value} {columns : Option Nat}
    (hcells : h.cells id = .ok (cells, columns)) :
    Store.gridIndex id row column t = reads (Heap.gridIndex id cells columns row column) t := by
  obtain ⟨harray, hstride⟩ := hrep.getElem?_arrays id hcells
  have hshort := hrep.short id cells harray
  refine (EStateM.bind_of_ok (hrep.cells_of_ok id hcells)).trans ((EStateM.bind_of_ok rfl).trans ?_)
  simp only [hstride]
  cases columns with
  | none => rfl
  | some columns =>
    show (if row < 0 ∨ column < 0 ∨ columns ≤ column.toInt.toNat then throw _ else _ : Action Nat) t = _
    unfold Heap.gridIndex
    dsimp only
    by_cases hout : row < 0 ∨ column < 0 ∨ columns ≤ column.toInt.toNat
    · rw [if_pos hout, if_pos (by tauto)]
      rfl
    -- Where the sum does not fit in 64 bits, it is beyond the cells, since their number does.
    · have hin : (row < 0 ∨ column < 0 ∨ columns ≤ column.toInt.toNat ∨
          cells.size ≤ row.toInt.toNat * columns + column.toInt.toNat) ↔
          cells.size ≤ row.toInt.toNat * columns + column.toInt.toNat := by tauto
      rw [if_neg hout, if_congr hin rfl rfl, checked_offset]
      by_cases hfits : row.toInt.toNat * columns + column.toInt.toNat < 2 ^ 64
      · rw [if_pos hfits]
        dsimp only
        split <;> rfl
      · rw [if_neg hfits, if_pos (by omega)]
        rfl

/-- The place of a cell is found before the array is looked up once more. -/
theorem gridIndex_bind {row column : Int64} {next : Nat → Action β}
    {k : Array Value × Option Nat → Nat → Except Fault (β × Option Change)}
    (hnext : ∀ r i, h.cells id = .ok r → next i t = known (k r i) t) :
    (Store.gridIndex id row column >>= next) t =
      known (h.cells id >>= fun r => Heap.gridIndex id r.1 r.2 row column >>= k r) t := by
  cases hcells : h.cells id with
  | error fault =>
    have hlookup : Store.cells id t = .error fault t := by rw [hrep.cells, hcells]; rfl
    have hindex : Store.gridIndex id row column t = .error fault t := EStateM.bind_of_error hlookup
    exact EStateM.bind_of_error hindex
  | ok r =>
    have hindex : Store.gridIndex id row column t =
        reads ((fun i => i) <$> Heap.gridIndex id r.1 r.2 row column) t :=
      (hrep.gridIndex id row column hcells).trans (by rw [id_map'])
    show _ = known (Heap.gridIndex id r.1 r.2 row column >>= k r) t
    exact bind_of_reads hindex fun i _ => hnext r i hcells

theorem getCell (row column : Int64) : Store.getCell id row column t = reads (h.getCell id row column) t := by
  rw [Store.getCell, Heap.getCell, reads, map_bind]
  simp only [map_bind]
  exact hrep.gridIndex_bind id fun r i hcells => EStateM.bind_of_ok (hrep.cells_of_ok id hcells)

theorem setCell (row column : Int64) (v : Value) :
    Store.setCell id row column v t = makes (h.setCell id row column v) t := by
  rw [Store.setCell, Heap.setCell, makes, map_bind]
  simp only [map_bind]
  refine hrep.gridIndex_bind id fun r i hcells => (EStateM.bind_of_ok (hrep.cells_of_ok id hcells)).trans ?_
  show EStateM.Result.ok () _ = EStateM.Result.ok () (t.apply (.setCell id i v))
  simp only [Store.apply, (hrep.getElem?_arrays id hcells).1]

end

section
variable (hrep : t.Represents h)
include hrep

/-- Nothing is allocated before all checks are passed. -/
theorem newArray (length : Int64) (fill : Value) :
    Store.newArray h.refuses length fill t = known ((fun c => (h.nextId, some c)) <$> h.newArray length fill) t := by
  rw [← hrep.next]
  unfold Store.newArray Heap.newArray filled Heap.newCells
  by_cases hneg : length < 0
  · rw [if_pos hneg, if_pos hneg]
    rfl
  · rw [if_neg hneg, if_neg hneg]
    by_cases hrefused : h.refuses length.toInt.toNat = true
    · rw [if_pos hrefused, if_pos hrefused]
      rfl
    · rw [if_neg hrefused, if_neg hrefused]
      rfl

theorem newGrid (rows columns : Int64) (fill : Value) :
    Store.newGrid h.refuses rows columns fill t =
      known ((fun c => (h.nextId, some c)) <$> h.newGrid rows columns fill) t := by
  rw [← hrep.next]
  unfold Store.newGrid Heap.newGrid filled checkedMul Heap.newCells
  by_cases hneg : rows < 0 ∨ columns < 0
  · rw [if_pos hneg, if_pos hneg]
    rfl
  · rw [if_neg hneg, if_neg hneg]
    dsimp only
    by_cases hlarge : 2 ^ 63 ≤ rows.toInt.toNat * columns.toInt.toNat
    · have hlarge' : Nat.pow 2 63 ≤ rows.toInt.toNat * columns.toInt.toNat := hlarge
      rw [if_pos hlarge', if_neg (Nat.not_lt.mpr hlarge)]
      rfl
    · have hlarge' : ¬Nat.pow 2 63 ≤ rows.toInt.toNat * columns.toInt.toNat := hlarge
      rw [if_neg hlarge', if_pos (Nat.lt_of_not_le hlarge)]
      dsimp only
      by_cases hrefused : h.refuses (rows.toInt.toNat * columns.toInt.toNat) = true
      · rw [if_pos hrefused, if_pos hrefused]
        rfl
      · rw [if_neg hrefused, if_neg hrefused]
        rfl

/-- An action on the tables comes to the fault of the heap and leaves them as they are, or gives the reply of the heap and
makes the change that the heap asks for. -/
theorem answer (r : Request) : Store.answer h.refuses r t = known (h.answer r) t := by
  cases r with
  | newStruct =>
    show EStateM.Result.ok (Reply.created t.next) _ = EStateM.Result.ok (Reply.created h.nextId) _
    rw [← hrep.next]
    rfl
  | addField id field => exact map_of_makes _ (hrep.setField id field .null)
  | setField id field v => exact map_of_makes _ (hrep.setField id field v)
  | getField id field => exact map_of_reads _ (hrep.getField id field)
  | newArray length fill => exact (map_of_known _ (hrep.newArray length fill)).trans (by rw [Functor.map_map]; rfl)
  | newGrid rows columns fill =>
    exact (map_of_known _ (hrep.newGrid rows columns fill)).trans (by rw [Functor.map_map]; rfl)
  | arrayLength id => exact map_of_reads _ (hrep.arrayLength id)
  | getIndex id index => exact map_of_reads _ (hrep.getIndex id index)
  | setIndex id index v => exact map_of_makes _ (hrep.setIndex id index v)
  | getCell id row column => exact map_of_reads _ (hrep.getCell id row column)
  | setCell id row column v => exact map_of_makes _ (hrep.setCell id row column v)

end

end Represents

/-! ### Changes -/

/-- The next number is in no table. -/
structure Free (t : Store) : Prop where
  structs : t.structs[t.next]? = none
  arrays : t.arrays[t.next]? = none
  strides : t.strides[t.next]? = none

/-- A new object is found in the tables for its kind, and nothing else is. -/
theorem Free.getElem?_add (hfree : t.Free) (o : Object) (id : Int64) :
    (t.apply (.add o)).structs[id]? = (if id = t.next then o.fields? else t.structs[id]?) ∧
      (t.apply (.add o)).arrays[id]? = (if id = t.next then o.cells? else t.arrays[id]?) ∧
      (t.apply (.add o)).strides[id]? = (if id = t.next then o.columns? else t.strides[id]?) := by
  obtain ⟨hstruct, harray, hstride⟩ := hfree
  by_cases hid : id = t.next
  · subst hid
    rcases o with fields | ⟨cells, _ | columns⟩ <;>
      simp [Store.apply, Object.fields?, Object.cells?, Object.columns?, hstruct, harray, hstride]
  · have hne : t.next ≠ id := Ne.symm hid
    rcases o with fields | ⟨cells, _ | columns⟩ <;> simp [Store.apply, Std.HashMap.getElem?_insert, hid, hne]

theorem Free.objectCount_add (hfree : t.Free) (o : Object) : (t.apply (.add o)).objectCount = t.objectCount + 1 := by
  have hstruct : t.next ∉ t.structs := by simp [Std.HashMap.mem_iff_isSome_getElem?, hfree.structs]
  have harray : t.next ∉ t.arrays := by simp [Std.HashMap.mem_iff_isSome_getElem?, hfree.arrays]
  rcases o with fields | ⟨cells, _ | columns⟩ <;>
    simp [Store.apply, objectCount, Std.HashMap.size_insert, hstruct, harray] <;> omega

namespace Represents
variable (hrep : t.Represents h)
include hrep

/-- As long as not all numbers are used up, the next one is used by nothing. -/
theorem free (hfew : h.objectCount < 2 ^ 64) : t.Free := by
  have hnone := Heap.find?_nextId hfew
  rw [← hrep.next] at hnone
  exact ⟨by rw [hrep.structs, hnone]; rfl, by rw [hrep.arrays, hnone]; rfl, by rw [hrep.strides, hnone]; rfl⟩

/-- A new object goes into one table, and the others keep what they have. -/
theorem add (hfew : h.objectCount < 2 ^ 64) {o : Object} (hshort : ∀ cells, o.cells? = some cells → cells.size < 2 ^ 63) :
    (t.apply (.add o)).Represents (h.apply (.add o)) := by
  have hfree := hrep.free hfew
  have hfind : ∀ id, (h.apply (.add o)).find? id = if id = t.next then some o else h.find? id := fun id => by
    rw [Heap.find?_add hfew, hrep.next]
  refine ⟨?_, ?_, fun id => ?_, fun id => ?_, fun id => ?_, fun id cells hcells => ?_⟩
  · have hnext : (t.apply (.add o)).next = t.next + 1 := by rcases o with fields | ⟨cells, _ | columns⟩ <;> rfl
    simp only [hnext, hrep.next, Heap.nextId, Heap.apply, Array.size_push]
    rw [← Nat.add_assoc, Int64.ofNat_add _ 1]
    rfl
  · rw [hfree.objectCount_add, hrep.count]
    simp [Heap.objectCount, Heap.apply]
  · rw [(hfree.getElem?_add o id).1, hrep.structs, hfind]
    split <;> rfl
  · rw [(hfree.getElem?_add o id).2.1, hrep.arrays, hfind]
    split <;> rfl
  · rw [(hfree.getElem?_add o id).2.2, hrep.strides, hfind]
    split <;> rfl
  · rw [(hfree.getElem?_add o id).2.1] at hcells
    split at hcells
    · exact hshort cells hcells
    · exact hrep.short id cells hcells

end Represents

/-- What an update does to one part of the objects, seen from that part. -/
theorem bind_update {γ : Type} {f : Object → Object} {part : Object → Option γ} {g : γ → γ}
    (hpart : ∀ o, part (f o) = (part o).map g) (h : Heap) (id other : Int64) :
    ((h.update id f).find? other).bind part =
      if other = id then ((h.find? id).bind part).map g else (h.find? other).bind part := by
  rw [Heap.find?_update]
  split
  · cases h.find? id with
    | none => rfl
    | some o => exact hpart o
  · rfl

/-- A part of the objects that an update keeps is looked up as before. -/
theorem bind_update_of_kept {γ : Type} {f : Object → Object} {part : Object → Option γ} (hpart : ∀ o, part (f o) = part o)
    (h : Heap) (id other : Int64) : ((h.update id f).find? other).bind part = (h.find? other).bind part := by
  rw [bind_update (g := fun a => a) fun o => (hpart o).trans Option.map_id'.symm, Option.map_id']
  split
  · rename_i hid
    rw [hid]
  · rfl

section
variable (t : Store) (id other : Int64) (field : String) (i : Nat) (v : Value)

theorem structs_setField : (t.apply (.setField id field v)).structs[other]? =
    if other = id then t.structs[id]?.map (·.put field v) else t.structs[other]? := by
  simp only [Store.apply]
  cases hstruct : t.structs[id]? with
  | none => by_cases hid : other = id <;> simp [hid, hstruct]
  | some fields => simp [Std.HashMap.getElem?_insert, eq_comm (a := other)]

theorem arrays_setCell : (t.apply (.setCell id i v)).arrays[other]? =
    if other = id then t.arrays[id]?.map (·.setIfInBounds i v) else t.arrays[other]? := by
  simp only [Store.apply]
  cases harray : t.arrays[id]? with
  | none => by_cases hid : other = id <;> simp [hid, harray]
  | some cells => simp [Std.HashMap.getElem?_insert, eq_comm (a := other)]

/-- Setting a field leaves the other tables as they are, and adds no struct. -/
theorem setField_rest : (t.apply (.setField id field v)).next = t.next ∧
    (t.apply (.setField id field v)).arrays = t.arrays ∧ (t.apply (.setField id field v)).strides = t.strides ∧
    (t.apply (.setField id field v)).objectCount = t.objectCount := by
  simp only [Store.apply]
  cases hstruct : t.structs[id]? with
  | none => exact ⟨rfl, rfl, rfl, rfl⟩
  | some fields =>
    have hmem : id ∈ t.structs := by simp [Std.HashMap.mem_iff_isSome_getElem?, hstruct]
    exact ⟨rfl, rfl, rfl, by simp [objectCount, Std.HashMap.size_insert, hmem]⟩

theorem setCell_rest : (t.apply (.setCell id i v)).next = t.next ∧
    (t.apply (.setCell id i v)).structs = t.structs ∧ (t.apply (.setCell id i v)).strides = t.strides ∧
    (t.apply (.setCell id i v)).objectCount = t.objectCount := by
  simp only [Store.apply]
  cases harray : t.arrays[id]? with
  | none => exact ⟨rfl, rfl, rfl, rfl⟩
  | some cells =>
    have hmem : id ∈ t.arrays := by simp [Std.HashMap.mem_iff_isSome_getElem?, harray]
    exact ⟨rfl, rfl, rfl, by simp [objectCount, Std.HashMap.size_insert, hmem]⟩

end

namespace Represents
variable (hrep : t.Represents h)
include hrep

/-- A field that is set is seen in the table of structs alone. -/
theorem setField_apply (id : Int64) (field : String) (v : Value) :
    (t.apply (.setField id field v)).Represents (h.apply (.setField id field v)) := by
  obtain ⟨hnext, harrays, hstrides, hcount⟩ := setField_rest t id field v
  refine ⟨?_, ?_, fun other => ?_, fun other => ?_, fun other => ?_, harrays ▸ hrep.short⟩
  · rw [hnext, hrep.next]
    simp [Heap.nextId, Heap.apply, Heap.update]
  · rw [hcount, hrep.count]
    simp [Heap.objectCount, Heap.apply, Heap.update]
  · rw [structs_setField, hrep.structs, hrep.structs]
    exact (bind_update (fun o => by cases o <;> rfl) h id other).symm
  · rw [harrays, hrep.arrays]
    exact (bind_update_of_kept (fun o => by cases o <;> rfl) h id other).symm
  · rw [hstrides, hrep.strides]
    exact (bind_update_of_kept (fun o => by cases o <;> rfl) h id other).symm

/-- A cell that is set is seen in the table of arrays alone, and no array changes its length. -/
theorem setCell_apply (id : Int64) (i : Nat) (v : Value) :
    (t.apply (.setCell id i v)).Represents (h.apply (.setCell id i v)) := by
  obtain ⟨hnext, hstructs, hstrides, hcount⟩ := setCell_rest t id i v
  refine ⟨?_, ?_, fun other => ?_, fun other => ?_, fun other => ?_, fun other cells hcells => ?_⟩
  · rw [hnext, hrep.next]
    simp [Heap.nextId, Heap.apply, Heap.update]
  · rw [hcount, hrep.count]
    simp [Heap.objectCount, Heap.apply, Heap.update]
  · rw [hstructs, hrep.structs]
    exact (bind_update_of_kept (fun o => by cases o <;> rfl) h id other).symm
  · rw [arrays_setCell, hrep.arrays, hrep.arrays]
    exact (bind_update (fun o => by cases o <;> rfl) h id other).symm
  · rw [hstrides, hrep.strides]
    exact (bind_update_of_kept (fun o => by cases o <;> rfl) h id other).symm
  · rw [arrays_setCell] at hcells
    split at hcells
    · obtain ⟨old, hold, rfl⟩ := Option.map_eq_some_iff.mp hcells
      rw [Array.size_setIfInBounds]
      exact hrep.short id old hold
    · exact hrep.short other cells hcells

/-- Tables and heap make a change alike. -/
theorem apply (hfew : h.objectCount < 2 ^ 64) {c : Change} (hshort : c.Short) : (t.apply c).Represents (h.apply c) := by
  cases c with
  | add o => exact hrep.add hfew hshort
  | setField id field v => exact hrep.setField_apply id field v
  | setCell id i v => exact hrep.setCell_apply id i v

end Represents

/-! ### Calls -/

/-- No array that is allocated is longer than an integer. -/
theorem short_of_answer {r : Request} {reply : Reply} {c : Change} (ha : h.answer r = .ok (reply, some c)) : c.Short := by
  cases r with
  | newStruct =>
    cases ha
    exact Change.short_newStruct
  | addField id field | setField id field v =>
    obtain ⟨c, hc, ⟨⟩⟩ := Except.map_eq_ok_iff.mp ha
    exact Change.short_setField hc
  | newArray length fill =>
    obtain ⟨c, hc, ⟨⟩⟩ := Except.map_eq_ok_iff.mp ha
    exact Change.short_newArray hc
  | newGrid rows columns fill =>
    obtain ⟨c, hc, ⟨⟩⟩ := Except.map_eq_ok_iff.mp ha
    exact Change.short_newGrid hc
  | setIndex id index v =>
    obtain ⟨c, hc, ⟨⟩⟩ := Except.map_eq_ok_iff.mp ha
    exact Change.short_setIndex hc
  | setCell id row column v =>
    obtain ⟨c, hc, ⟨⟩⟩ := Except.map_eq_ok_iff.mp ha
    exact Change.short_setCell hc
  | getField id field | arrayLength id | getIndex id index | getCell id row column =>
    obtain ⟨a, -, ⟨⟩⟩ := Except.map_eq_ok_iff.mp ha

namespace Represents

/-- A call on the tables gets the reply of the heap. If it is refused the tables are what they were, and if it is granted they
represent what the heap has become. -/
theorem serve (hrep : t.Represents h) (hfew : h.objectCount < 2 ^ 64) (c : Call) :
    (t.serve c).1 = (h.serve c).1 ∧ (t.serve c).2.Represents (h.serve c).2 ∧
      ∀ fault, (t.serve c).1 = .error fault → (t.serve c).2 = t := by
  have hrep' : t.Represents { h with refuses := c.refuses } :=
    ⟨hrep.next, hrep.count, hrep.structs, hrep.arrays, hrep.strides, hrep.short⟩
  have hanswer := hrep'.answer c.request
  unfold Store.serve Heap.serve Heap.perform
  change Store.answer c.refuses c.request t = _ at hanswer
  rw [hanswer]
  cases ha : Heap.answer { h with refuses := c.refuses } c.request with
  | error fault => exact ⟨rfl, hrep', fun _ _ => rfl⟩
  | ok r =>
    obtain ⟨reply, change⟩ := r
    refine ⟨rfl, ?_, fun fault hfault => by cases hfault⟩
    cases change with
    | none => exact hrep'
    | some change => exact hrep'.apply hfew (short_of_answer ha)

/-- Whatever they have been asked, the tables represent what the heap has become. -/
theorem after (hrep : t.Represents h) (calls : List Call)
    (hfew : h.objectCount + ((t.replies calls).filterMap created?).length < 2 ^ 64) :
    t.replies calls = h.replies calls ∧ (t.after calls).Represents (h.after calls) := by
  induction calls generalizing t h with
  | nil => exact ⟨rfl, hrep⟩
  | cons c rest ih =>
    obtain ⟨hreply, hserved, -⟩ := hrep.serve (by omega) c
    have hcount := Heap.objectCount_serve h c
    rw [← hreply] at hcount
    have hrest : (h.serve c).2.objectCount + (((t.serve c).2.replies rest).filterMap created?).length < 2 ^ 64 := by
      rw [replies] at hfew
      cases hcreated : created? (t.serve c).1 with
      | none =>
        rw [List.filterMap_cons_none hcreated] at hfew
        rw [hcreated] at hcount
        simp only [Option.isSome_none, Bool.false_eq_true, if_false] at hcount
        omega
      | some id =>
        rw [List.filterMap_cons_some hcreated, List.length_cons] at hfew
        rw [hcreated] at hcount
        simp only [Option.isSome_some, if_true] at hcount
        omega
    obtain ⟨hreplies, hafter⟩ := ih hserved hrest
    exact ⟨by rw [replies, Heap.replies, hreply, hreplies], hafter⟩

end Represents

/-- Tables represent the objects of one heap only. -/
theorem Represents.objects_eq {h' : Heap} (hrep : t.Represents h) (hrep' : t.Represents h') (hfew : h.objectCount < 2 ^ 64) :
    h'.objects = h.objects := by
  have hfind : ∀ id, h'.find? id = h.find? id := fun id =>
    Object.find?_ext ((hrep'.structs id).symm.trans (hrep.structs id)) ((hrep'.arrays id).symm.trans (hrep.arrays id))
      ((hrep'.strides id).symm.trans (hrep.strides id))
  have hcount : h'.objectCount = h.objectCount := hrep'.count.symm.trans hrep.count
  refine Array.ext_getElem? fun i => ?_
  by_cases hi : i < h.objectCount
  · have hindex : Heap.indexOf (Int64.ofNat (Heap.firstId + i)) = i := by
      rw [Heap.indexOf_ofNat, Nat.mod_eq_of_lt (by omega)]
    have hsame := hfind (Int64.ofNat (Heap.firstId + i))
    rw [Heap.find?, Heap.find?, hindex] at hsame
    exact hsame
  · have hle : h.objects.size ≤ i := Nat.le_of_not_lt hi
    have hle' : h'.objects.size ≤ i := Nat.le_trans (Nat.le_of_eq hcount) hle
    rw [Array.getElem?_eq_none hle, Array.getElem?_eq_none hle']

/-- Empty tables stand for the empty heap. -/
theorem represents_new : Represents {} {} where
  next := rfl
  count := rfl
  structs _ := Std.HashMap.getElem?_empty
  arrays _ := Std.HashMap.getElem?_empty
  strides _ := Std.HashMap.getElem?_empty
  short _ _ h := by simp at h

end

end Store
end Bytecode
