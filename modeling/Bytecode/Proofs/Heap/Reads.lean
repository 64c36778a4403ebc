import Bytecode.Proofs.Heap.Refinement

/-! What can be read from a heap, and what a request does to it. A read looks at one object, and there at one place or at the
    length; two reads may look at the same place, one by the index of a cell and one by its row and column. What a read
    gives follows from the shape of the object and from what the place holds (`read_congr`, `read_eq_value_iff`). A request
    that writes changes what one place holds, one that allocates adds an object, and any other changes nothing. -/

namespace Bytecode.Heap

/-- A request that reads. -/
inductive Read where
  | field (id : Int64) (name : String)
  | length (id : Int64)
  | index (id index : Int64)
  | cell (id row column : Int64)

namespace Read

def request : Read → Request
  | .field id name => .getField id name
  | .length id => .arrayLength id
  | .index id i => .getIndex id i
  | .cell id row column => .getCell id row column

/-- The number of the object that is read. -/
def id : Read → Int64
  | .field id _ | .length id | .index id _ | .cell id _ _ => id

end Read

/-- The reply to a read. -/
def read (h : Heap) : Read → Except Fault Reply
  | .field id name => Reply.value <$> h.getField id name
  | .length id => Reply.length <$> h.arrayLength id
  | .index id i => Reply.value <$> h.getIndex id i
  | .cell id row column => Reply.value <$> h.getCell id row column

/-- A place that holds a value: a field of a struct, or a cell of an array. -/
inductive Place where
  | field (id : Int64) (name : String)
  | cell (id : Int64) (index : Nat)
  deriving DecidableEq

namespace Place

/-- The number of the object that the place belongs to. -/
def id : Place → Int64
  | .field id _ | .cell id _ => id

/-- The change that puts a value there. -/
def change (v : Value) : Place → Change
  | .field id name => .setField id name v
  | .cell id i => .setCell id i v

end Place

/-- The index is one of an array with a length. -/
def Within (length : Nat) (index : Int64) : Prop :=
  0 ≤ index.toInt ∧ index.toInt < length

instance (length : Nat) (index : Int64) : Decidable (Within length index) :=
  inferInstanceAs (Decidable (_ ∧ _))

/-- The row and the column are in an array with a length and a number of columns. -/
def Inside (length columns : Nat) (row column : Int64) : Prop :=
  0 ≤ row.toInt ∧ 0 ≤ column.toInt ∧ column.toInt < columns ∧ row.toInt * columns + column.toInt < length

instance (length columns : Nat) (row column : Int64) : Decidable (Inside length columns row column) :=
  inferInstanceAs (Decidable (_ ∧ _ ∧ _ ∧ _))

/-- The place that a read looks at. A struct has a place for every field, set or not. The cell in a row and a column lies
behind the rows before it; an index, a row or a column that the array does not have stands for no place. -/
def place? (h : Heap) : Read → Option Place
  | .field id name =>
    match h.shape? id with
    | some .struct => some (.field id name)
    | _ => none
  | .length _ => none
  | .index id i =>
    match h.shape? id with
    | some (.array length _) => if Within length i then some (.cell id i.toInt.toNat) else none
    | _ => none
  | .cell id row column =>
    match h.shape? id with
    | some (.array length (some columns)) =>
      if Inside length columns row column then some (.cell id (row.toInt * columns + column.toInt).toNat) else none
    | _ => none

/-- What a place holds. -/
def held? (h : Heap) : Place → Option Value
  | .field id name =>
    match h.find? id with
    | some (.struct fields) => fields.get? name
    | _ => none
  | .cell id i =>
    match h.find? id with
    | some (.array cells _) => cells[i]?
    | _ => none

/-- What a read gives that finds no value, by the shape of the object. -/
def Read.unheld : Read → Option Shape → Except Fault Reply
  | .field id name, some .struct => .error (.noField id name)
  | .field id _, _ => .error (.noStruct id)
  | .length _, some (.array size _) => .ok (.length size)
  | .index _ _, some (.array _ _) => .error .indexOutOfBounds
  | .cell _ row column, some (.array _ (some columns)) => .error (.cellOutOfBounds row column columns)
  | .cell id _ _, some (.array _ none) => .error (.notGrid id)
  | .length id, _ | .index id _, _ | .cell id _ _, _ => .error (.noArray id)

/-- What a request that writes is to write, and the read that looks there. -/
def Request.write? : Request → Option (Read × Value)
  | .addField id name => some (.field id name, .null)
  | .setField id name v => some (.field id name, v)
  | .setIndex id i v => some (.index id i, v)
  | .setCell id row column v => some (.cell id row column, v)
  | _ => none

/-- What the cells of a new array hold. -/
def Request.fill : Request → Value
  | .newArray _ fill | .newGrid _ _ fill => fill
  | _ => .null

/-! ### Indices, rows and columns -/

theorem lt_zero_iff {n : Int64} : n < 0 ↔ n.toInt < 0 := by
  rw [Int64.lt_iff_toInt_lt, Int64.toInt_zero]

theorem toNat_offset (row column : Int64) (hrow : 0 ≤ row.toInt) (hcolumn : 0 ≤ column.toInt) (n : Nat) :
    ((row.toInt.toNat * n + column.toInt.toNat : Nat) : Int) = row.toInt * n + column.toInt := by
  push_cast
  rw [Int.toNat_of_nonneg hrow, Int.toNat_of_nonneg hcolumn]

theorem Within.lt {length : Nat} {i : Int64} (hin : Within length i) : i.toInt.toNat < length := by
  obtain ⟨hlow, hhigh⟩ := hin
  omega

theorem Inside.lt {length columns : Nat} {row column : Int64} (hin : Inside length columns row column) :
    (row.toInt * columns + column.toInt).toNat < length := by
  obtain ⟨hrow, hcolumn, -, hlength⟩ := hin
  rw [← toNat_offset row column hrow hcolumn] at hlength ⊢
  omega

theorem cellIndex_eq (cells : Array Value) (i : Int64) :
    cellIndex cells i = if Within cells.size i then .ok i.toInt.toNat else .error .indexOutOfBounds := by
  have hout : (i < 0 ∨ cells.size ≤ i.toInt.toNat) ↔ ¬Within cells.size i := by
    rw [lt_zero_iff, Within]
    omega
  rw [cellIndex, if_congr hout rfl rfl, ite_not]

/-- A cell of a grid has a place if and only if the row and the column are inside the grid. -/
theorem gridIndex_eq (id : Int64) (cells : Array Value) (n : Nat) (row column : Int64) :
    gridIndex id cells (some n) row column =
      if Inside cells.size n row column then .ok (row.toInt * n + column.toInt).toNat
      else .error (.cellOutOfBounds row column n) := by
  simp only [gridIndex]
  by_cases hneg : row < 0 ∨ column < 0
  · have hnot : ¬Inside cells.size n row column := by
      rw [lt_zero_iff, lt_zero_iff] at hneg
      rw [Inside]
      omega
    rw [if_neg hnot, if_pos (by tauto)]
  · rw [lt_zero_iff, lt_zero_iff] at hneg
    have hoffset := toNat_offset row column (by omega) (by omega) n
    have hout : (row < 0 ∨ column < 0 ∨ n ≤ column.toInt.toNat ∨
        cells.size ≤ row.toInt.toNat * n + column.toInt.toNat) ↔ ¬Inside cells.size n row column := by
      rw [lt_zero_iff, lt_zero_iff, Inside]
      omega
    rw [if_congr hout rfl rfl, ite_not, ← hoffset, Int.toNat_natCast]

/-! ### Reads and the object that they look at -/

section
variable {h h' : Heap} {id : Int64} {fields : Table Value} {cells : Array Value} {columns : Option Nat} {n : Nat}

theorem perform_of_ok {r : Request} {reply : Reply} {change : Option Change} (hanswer : h.answer r = .ok (reply, change)) :
    h.perform r = (.ok reply, change.elim h h.apply) := by
  rw [perform, hanswer]

theorem perform_of_refused {r : Request} {fault : Fault} (hanswer : h.answer r = .error fault) :
    h.perform r = (.error fault, h) := by
  rw [perform, hanswer]

/-- A request that fails leaves the heap as it was. -/
theorem perform_of_error {r : Request} {fault : Fault} (hfault : (h.perform r).1 = .error fault) :
    h.perform r = (.error fault, h) := by
  cases hanswer : h.answer r with
  | error other =>
    rw [perform_of_refused hanswer] at hfault ⊢
    cases hfault
    rfl
  | ok reply =>
    rw [perform_of_ok hanswer] at hfault
    cases hfault

/-- A read has its answer and changes nothing. -/
theorem perform_read (h : Heap) (q : Read) : h.perform q.request = (h.read q, h) := by
  unfold perform
  cases q with
  | field id name =>
    simp only [Read.request, answer, read]
    cases h.getField id name <;> rfl
  | length id =>
    simp only [Read.request, answer, read]
    cases h.arrayLength id <;> rfl
  | index id i =>
    simp only [Read.request, answer, read]
    cases h.getIndex id i <;> rfl
  | cell id row column =>
    simp only [Read.request, answer, read]
    cases h.getCell id row column <;> rfl

theorem held?_field (hfind : h.find? id = some (.struct fields)) (name : String) :
    h.held? (.field id name) = fields.get? name := by
  rw [held?, hfind]

theorem held?_cell (hfind : h.find? id = some (.array cells columns)) (i : Nat) : h.held? (.cell id i) = cells[i]? := by
  rw [held?, hfind]

theorem getElem?_eq_getD {i : Nat} (hi : i < cells.size) : cells[i]? = some (cells.getD i .null) := by
  rw [Array.getD, dif_pos hi, Array.getElem?_eq_getElem hi]
  rfl

/-- What a read gives: the value at the place that it looks at, or else what the shape of the object says. -/
theorem read_eq (h : Heap) (q : Read) :
    h.read q = ((h.place? q).bind h.held?).elim (q.unheld (h.shape? q.id)) (.ok ∘ .value) := by
  cases q with
  | field id name =>
    simp only [read, getField, Heap.fields, place?, Read.id, shape?]
    cases hfind : h.find? id with
    | none => rfl
    | some o =>
      cases o with
      | struct fields =>
        simp only [Option.map_some, Object.shape, Option.bind_some, held?, hfind, bind, Except.bind]
        cases fields.get? name <;> rfl
      | array cells columns => rfl
  | length id =>
    simp only [read, arrayLength, Heap.cells, place?, Read.id, shape?]
    cases h.find? id with
    | none => rfl
    | some o => cases o <;> rfl
  | index id i =>
    simp only [read, getIndex, Heap.cells, place?, Read.id, shape?]
    cases hfind : h.find? id with
    | none => rfl
    | some o =>
      cases o with
      | struct fields => rfl
      | array cells columns =>
        show Reply.value <$> (cellIndex cells i >>= _) =
          ((if Within cells.size i then some (Place.cell id i.toInt.toNat) else none).bind h.held?).elim _ _
        -- Behind the check the cell is there, so nothing is read in its place.
        rw [cellIndex_eq]
        by_cases hin : Within cells.size i
        · rw [if_pos hin, if_pos hin, Option.bind_some, held?_cell hfind, getElem?_eq_getD hin.lt]
          rfl
        · rw [if_neg hin, if_neg hin]
          rfl
  | cell id row column =>
    simp only [read, getCell, Heap.cells, place?, Read.id, shape?]
    cases hfind : h.find? id with
    | none => rfl
    | some o =>
      cases o with
      | struct fields => rfl
      | array cells columns =>
        cases columns with
        | none => rfl
        | some n =>
          show Reply.value <$> (gridIndex id cells (some n) row column >>= _) =
            ((if Inside cells.size n row column then some (Place.cell id (row.toInt * n + column.toInt).toNat)
              else none).bind h.held?).elim _ _
          rw [gridIndex_eq]
          by_cases hin : Inside cells.size n row column
          · rw [if_pos hin, if_pos hin, Option.bind_some, held?_cell hfind, getElem?_eq_getD hin.lt]
            rfl
          · rw [if_neg hin, if_neg hin]
            rfl

theorem place?_congr {q : Read} (hshape : h'.shape? q.id = h.shape? q.id) : h'.place? q = h.place? q := by
  cases q <;> simp only [Read.id] at hshape <;> simp only [place?, hshape]

/-- A read gives the same as before if its object has the same shape and its place holds the same. -/
theorem read_congr {q : Read} (hshape : h'.shape? q.id = h.shape? q.id)
    (hheld : ∀ p, h.place? q = some p → h'.held? p = h.held? p) : h'.read q = h.read q := by
  rw [read_eq, read_eq, hshape, place?_congr hshape]
  cases hplace : h.place? q with
  | none => rfl
  | some p => rw [Option.bind_some, Option.bind_some, hheld p hplace]

theorem unheld_ne_value (q : Read) (s : Option Shape) (v : Value) : q.unheld s ≠ .ok (.value v) := by
  unfold Read.unheld
  split <;> simp

/-- A read gives the value that its place holds, and a value only so. -/
theorem read_eq_value_iff {q : Read} {v : Value} :
    h.read q = .ok (.value v) ↔ ∃ p, h.place? q = some p ∧ h.held? p = some v := by
  rw [read_eq, ← Option.bind_eq_some_iff]
  cases (h.place? q).bind h.held? with
  | none => simpa using unheld_ne_value q _ v
  | some w => simp

/-! ### Places and changes -/

/-- The heap has the place. -/
def HasPlace (h : Heap) : Place → Prop
  | .field id _ => ∃ fields, h.find? id = some (.struct fields)
  | .cell id i => ∃ cells columns, h.find? id = some (.array cells columns) ∧ i < cells.size

theorem find?_of_shape_struct (hshape : h.shape? id = some .struct) : ∃ fields, h.find? id = some (.struct fields) := by
  obtain ⟨o, hfind, ho⟩ := Option.map_eq_some_iff.mp hshape
  cases o with
  | struct fields => exact ⟨fields, hfind⟩
  | array cells columns => cases ho

theorem find?_of_shape_array {length : Nat} (hshape : h.shape? id = some (.array length columns)) :
    ∃ cells, h.find? id = some (.array cells columns) ∧ cells.size = length := by
  obtain ⟨o, hfind, ho⟩ := Option.map_eq_some_iff.mp hshape
  cases o with
  | struct fields => cases ho
  | array cells columns' =>
    cases ho
    exact ⟨cells, hfind, rfl⟩

/-- What is read is at a place of the object that is asked. -/
theorem hasPlace_of_eq {q : Read} {p : Place} (hplace : h.place? q = some p) : h.HasPlace p ∧ p.id = q.id := by
  cases q with
  | field id name =>
    simp only [place?] at hplace
    split at hplace
    · cases hplace
      exact ⟨find?_of_shape_struct ‹_›, rfl⟩
    · cases hplace
  | length id => cases hplace
  | index id i =>
    simp only [place?] at hplace
    split at hplace
    · split at hplace
      · cases hplace
        obtain ⟨cells, hfind, rfl⟩ := find?_of_shape_array ‹_›
        exact ⟨⟨cells, _, hfind, Within.lt ‹_›⟩, rfl⟩
      · cases hplace
    · cases hplace
  | cell id row column =>
    simp only [place?] at hplace
    split at hplace
    · split at hplace
      · cases hplace
        obtain ⟨cells, hfind, rfl⟩ := find?_of_shape_array ‹_›
        exact ⟨⟨cells, _, hfind, Inside.lt ‹_›⟩, rfl⟩
      · cases hplace
    · cases hplace

theorem held?_congr {p : Place} (hfind : h'.find? p.id = h.find? p.id) : h'.held? p = h.held? p := by
  cases p <;> simp only [Place.id] at hfind <;> simp only [held?, hfind]

/-- A read looks at its own object only. -/
theorem read_of_find {q : Read} (hfind : h'.find? q.id = h.find? q.id) : h'.read q = h.read q := by
  refine read_congr (by rw [shape?, shape?, hfind]) fun p hp => held?_congr ?_
  rwa [(hasPlace_of_eq hp).2]

theorem shape?_congr {h h' : Heap} (hshapes : h'.shapes = h.shapes) (id : Int64) : h'.shape? id = h.shape? id := by
  rw [shape?_eq, shape?_eq, hshapes]

/-- No write changes what objects there are, nor how long they are. -/
theorem shapes_change_place (h : Heap) (p : Place) (v : Value) : (h.apply (p.change v)).shapes = h.shapes := by
  rw [shapes_apply]
  cases p <;> exact List.append_nil _

/-- The change that puts a value at a place changes what this place holds and nothing else. -/
theorem held?_change {p : Place} (hp : h.HasPlace p) (v : Value) (other : Place) :
    (h.apply (p.change v)).held? other = if other = p then some v else h.held? other := by
  cases p with
  | field id name =>
    obtain ⟨fields, hfind⟩ := hp
    have hfind' := fun other => find?_update h id other (.putField name v)
    cases other with
    | field id' name' =>
      simp only [Place.change, apply, held?, hfind', Place.field.injEq]
      by_cases hid : id' = id
      · subst hid
        simp only [if_true, hfind, Option.map_some, Object.putField, Table.get?_put, true_and]
      · simp only [hid, false_and, if_false]
    | cell id' i =>
      simp only [Place.change, apply, held?, hfind', reduceCtorEq, if_false]
      by_cases hid : id' = id
      · subst hid
        simp only [if_true, hfind, Option.map_some, Object.putField]
      · simp only [if_neg hid]
  | cell id i =>
    obtain ⟨cells, columns, hfind, hlt⟩ := hp
    have hfind' := fun other => find?_update h id other (.putCell i v)
    cases other with
    | field id' name' =>
      simp only [Place.change, apply, held?, hfind', reduceCtorEq, if_false]
      by_cases hid : id' = id
      · subst hid
        simp only [if_true, hfind, Option.map_some, Object.putCell]
      · simp only [if_neg hid]
    | cell id' j =>
      simp only [Place.change, apply, held?, hfind', Place.cell.injEq]
      by_cases hid : id' = id
      · subst hid
        simp only [if_true, hfind, Option.map_some, Object.putCell, Array.getElem?_setIfInBounds, true_and]
        by_cases hj : j = i
        · subst hj
          -- The cell is there, so it has been written.
          simp [hlt]
        · rw [if_neg hj, if_neg (Ne.symm hj)]
      · simp only [hid, false_and, if_false]

/-! ### Requests that write -/

theorem answer_setField (h : Heap) (id : Int64) (name : String) (v : Value) :
    h.answer (.setField id name v) = (h.place? (.field id name)).elim
      ((·, none) <$> (Read.field id name).unheld (h.shape? id)) fun p => .ok (.done, some (p.change v)) := by
  simp only [answer, setField, Heap.fields, place?, shape?]
  cases h.find? id with
  | none => rfl
  | some o => cases o <;> rfl

/-- A cell is set where it would be read, and refused as the read would be. -/
theorem answer_setIndex (h : Heap) (id i : Int64) (v : Value) :
    h.answer (.setIndex id i v) = (h.place? (.index id i)).elim
      ((·, none) <$> (Read.index id i).unheld (h.shape? id)) fun p => .ok (.done, some (p.change v)) := by
  simp only [answer, setIndex, Heap.cells, place?, shape?]
  cases h.find? id with
  | none => rfl
  | some o =>
    cases o with
    | struct fields => rfl
    | array cells columns =>
      show _ <$> (cellIndex cells i >>= _) = Option.elim (if Within cells.size i then some _ else none) _ _
      rw [cellIndex_eq]
      split <;> rfl

/-- A cell of a grid is set where it would be read, and refused as the read would be. -/
theorem answer_setCell (h : Heap) (id row column : Int64) (v : Value) :
    h.answer (.setCell id row column v) = (h.place? (.cell id row column)).elim
      ((·, none) <$> (Read.cell id row column).unheld (h.shape? id)) fun p => .ok (.done, some (p.change v)) := by
  simp only [answer, setCell, Heap.cells, place?, shape?]
  cases h.find? id with
  | none => rfl
  | some o =>
    cases o with
    | struct fields => rfl
    | array cells columns =>
      cases columns with
      | none => rfl
      | some n =>
        show _ <$> (gridIndex id cells (some n) row column >>= _) =
          Option.elim (if Inside cells.size n row column then some _ else none) _ _
        rw [gridIndex_eq]
        split <;> rfl

/-- A request that writes is granted as the change at the place where the read looks, and refused as the read is if there is
no such place. -/
theorem answer_write {r : Request} {q : Read} {v : Value} (hwrite : r.write? = some (q, v)) :
    h.answer r = (h.place? q).elim ((·, none) <$> q.unheld (h.shape? q.id)) fun p => .ok (.done, some (p.change v)) := by
  cases r with
  | addField id name =>
    cases hwrite
    exact answer_setField h id name .null
  | setField id name v =>
    cases hwrite
    exact answer_setField h id name v
  | setIndex id i v =>
    cases hwrite
    exact answer_setIndex h id i v
  | setCell id row column v =>
    cases hwrite
    exact answer_setCell h id row column v
  | _ => cases hwrite

/-- A write to no place fails. -/
theorem unheld_of_write {r : Request} {q : Read} {v : Value} (hwrite : r.write? = some (q, v)) (s : Option Shape) :
    ∃ fault, q.unheld s = .error fault := by
  have hlength : ∀ id, q ≠ .length id := by
    rintro id rfl
    cases r <;> cases hwrite
  cases q with
  | length id => exact absurd rfl (hlength id)
  | field id name => rcases s with _ | _ | _ <;> exact ⟨_, rfl⟩
  | index id i => rcases s with _ | _ | _ <;> exact ⟨_, rfl⟩
  | cell id row column => rcases s with _ | _ | ⟨_, _ | _⟩ <;> exact ⟨_, rfl⟩

/-! ### Requests that allocate -/

/-- An object as it is allocated. -/
def blank (fill : Value) : Shape → Object
  | .struct => .struct {}
  | .array length columns => .array (Array.replicate length fill) columns

theorem shape_blank (fill : Value) (s : Shape) : (blank fill s).shape = s := by
  cases s <;> simp [blank, Object.shape]

/-- A new array is blank, if there is room for it. -/
theorem newCells_eq (h : Heap) (length : Nat) (fill : Value) (columns : Option Nat) :
    (∃ fault, h.newCells length fill columns = .error fault) ∨
      h.newCells length fill columns = .ok (.add (blank fill (.array length columns))) := by
  unfold newCells
  split
  · exact Or.inl ⟨_, rfl⟩
  · exact Or.inr rfl

/-- A request that allocates is refused or adds an object with the next number. -/
theorem answer_allocate {r : Request} {s : Shape} (hshape : r.shape? = some s) :
    (∃ fault, h.answer r = .error fault) ∨
      h.answer r = .ok (.created h.nextId, some (.add (blank r.fill s))) := by
  -- Only making the object can fail; the reply is put around it.
  have hmap : ∀ {x : Except Fault Change} {c : Change}, (∃ fault, x = .error fault) ∨ x = .ok c →
      (∃ fault, (fun c => (Reply.created h.nextId, some c)) <$> x = .error fault) ∨
        (fun c => (Reply.created h.nextId, some c)) <$> x = .ok (.created h.nextId, some c) := by
    rintro x c (⟨fault, rfl⟩ | rfl)
    · exact Or.inl ⟨fault, rfl⟩
    · exact Or.inr rfl
  cases r with
  | newStruct =>
    cases hshape
    exact Or.inr rfl
  | newArray length fill =>
    cases hshape
    refine hmap ?_
    unfold newArray
    split
    · exact Or.inl ⟨_, rfl⟩
    · exact newCells_eq h _ fill none
  | newGrid rows columns fill =>
    cases hshape
    refine hmap ?_
    unfold newGrid
    split
    · exact Or.inl ⟨_, rfl⟩
    · dsimp only
      split
      · exact Or.inl ⟨_, rfl⟩
      · exact newCells_eq h _ fill _
  | _ => cases hshape

end

/-! ### What a request does -/

/-- Nothing that can be seen of the heap has changed. -/
structure Unchanged (h h' : Heap) : Prop where
  reads : ∀ q, h'.read q = h.read q
  count : h'.objectCount = h.objectCount
  next : h'.nextId = h.nextId

/-- A value has been written to a place: whatever looks there sees it, and all else is as before. -/
structure Written (h h' : Heap) (p : Place) (v : Value) : Prop where
  there : ∀ q, h.place? q = some p → h'.read q = .ok (.value v)
  elsewhere : ∀ q, h.place? q ≠ some p → h'.read q = h.read q
  count : h'.objectCount = h.objectCount
  next : h'.nextId = h.nextId

/-- An object of a shape has been allocated. It has no fields, all its cells hold the same value, and all other objects are
as before. -/
structure Allocated (h h' : Heap) (id : Int64) (s : Shape) (fill : Value) : Prop where
  unused : h.shape? id = none
  others : ∀ q : Read, q.id ≠ id → h'.read q = h.read q
  shape : h'.shape? id = some s
  fields : ∀ name, ∃ fault, h'.read (.field id name) = .error fault
  cells : ∀ q i, h'.place? q = some (.cell id i) → h'.read q = .ok (.value fill)
  lengths : ∀ length columns, s = .array length columns → h'.read (.length id) = .ok (.length length)
  count : h'.objectCount = h.objectCount + 1
  next : h'.nextId = id + 1

section
variable {h : Heap} {p : Place} {v : Value}

theorem objectCount_change (h : Heap) (p : Place) (v : Value) : (h.apply (p.change v)).objectCount = h.objectCount :=
  objectCount_congr (shapes_change_place h p v)

theorem nextId_congr {h h' : Heap} (hcount : h'.objectCount = h.objectCount) : h'.nextId = h.nextId := by
  rw [nextId, ← objectCount, hcount]
  rfl

/-- A request allocates, writes or reads. -/
theorem request_cases (r : Request) : r.shape?.isSome ∨ r.write?.isSome ∨ ∃ q : Read, r = q.request := by
  cases r with
  | newStruct | newArray | newGrid => exact Or.inl rfl
  | addField | setField | setIndex | setCell => exact Or.inr (Or.inl rfl)
  | getField id name => exact Or.inr (Or.inr ⟨.field id name, rfl⟩)
  | arrayLength id => exact Or.inr (Or.inr ⟨.length id, rfl⟩)
  | getIndex id i => exact Or.inr (Or.inr ⟨.index id i, rfl⟩)
  | getCell id row column => exact Or.inr (Or.inr ⟨.cell id row column, rfl⟩)

/-- A write changes one place and no other. -/
theorem written_change (hp : h.HasPlace p) (v : Value) : Written h (h.apply (p.change v)) p v := by
  have hshape := shape?_congr (shapes_change_place h p v)
  have hcount := objectCount_change h p v
  refine ⟨fun q hq => ?_, fun q hq => ?_, hcount, nextId_congr hcount⟩
  · refine read_eq_value_iff.mpr ⟨p, ?_, ?_⟩
    · rwa [place?_congr (hshape q.id)]
    · rw [held?_change hp, if_pos rfl]
  · refine read_congr (hshape q.id) fun other hother => ?_
    rw [held?_change hp, if_neg]
    rintro rfl
    exact hq hother

/-- A new object is under a number that was not in use, and nothing else has changed. -/
theorem allocated_add (hfew : h.objectCount < 2 ^ 64) (s : Shape) (fill : Value) :
    Allocated h (h.apply (.add (blank fill s))) h.nextId s fill := by
  have hnew : (h.apply (.add (blank fill s))).find? h.nextId = some (blank fill s) := by
    rw [find?_add hfew, if_pos rfl]
  have hshape : (h.apply (.add (blank fill s))).shape? h.nextId = some s := by
    rw [shape?, hnew, Option.map_some, shape_blank]
  refine ⟨?_, fun q hq => ?_, hshape, fun name => ?_, fun q i hq => ?_, ?_, ?_, ?_⟩
  · rw [shape?, find?_nextId hfew]
    rfl
  -- The other objects are where they were, so they are read as before.
  · exact read_of_find (by rw [find?_add hfew, if_neg hq])
  · rw [read_eq]
    simp only [place?, Read.id, hshape]
    cases s with
    | struct =>
      simp only [Option.bind_some, held?_field hnew]
      exact ⟨_, rfl⟩
    | array length columns => exact ⟨_, rfl⟩
  · obtain ⟨⟨cells, columns, hfind, hlt⟩, -⟩ := hasPlace_of_eq hq
    refine read_eq_value_iff.mpr ⟨_, hq, ?_⟩
    rw [held?_cell hfind, Array.getElem?_eq_getElem hlt]
    cases s with
    | struct => cases hnew.symm.trans hfind
    | array length columns' =>
      cases hnew.symm.trans hfind
      rw [Array.getElem_replicate]
  · rintro length columns rfl
    rw [read_eq]
    simp only [place?, Read.id, hshape]
    rfl
  · simp [objectCount, apply]
  · simp only [nextId, apply, Array.size_push]
    rw [← Nat.add_assoc, Int64.ofNat_add]
    rfl

/-- What the reply to a request says about the heap behind it. A request that is refused or that reads changes nothing. One
that writes is granted if there is such a place, which then holds the value for every read that looks there, and is refused
as the read is otherwise; no read of any other place changes. One that allocates adds an object of the shape it asks for, or
is refused. Tables that represent the heap and are worked on in place get the same reply and represent the heap behind it,
and if the request is refused they are what they were. -/
theorem requests_respect_reads (h : Heap) (r : Request) (hfew : h.objectCount < 2 ^ 64) :
    (r.shape?.isSome ∨ r.write?.isSome ∨ ∃ q : Read, r = q.request) ∧
      (∀ fault, (h.perform r).1 = .error fault → Unchanged h (h.perform r).2) ∧
      (∀ q : Read, r = q.request → h.perform r = (h.read q, h)) ∧
      (∀ q v, r.write? = some (q, v) →
        (∃ p, h.place? q = some p ∧ (h.perform r).1 = .ok .done ∧ Written h (h.perform r).2 p v) ∨
          ∃ fault, h.place? q = none ∧ h.read q = .error fault ∧ (h.perform r).1 = .error fault) ∧
      (∀ s, r.shape? = some s →
        ((h.perform r).1 = .ok (.created h.nextId) ∧ Allocated h (h.perform r).2 h.nextId s r.fill) ∨
          ∃ fault, (h.perform r).1 = .error fault) ∧
      ∀ t : Store, t.Represents h →
        (t.serve ⟨h.refuses, r⟩).1 = (h.perform r).1 ∧ (t.serve ⟨h.refuses, r⟩).2.Represents (h.perform r).2 ∧
          ∀ fault, (t.serve ⟨h.refuses, r⟩).1 = .error fault → (t.serve ⟨h.refuses, r⟩).2 = t := by
  refine ⟨request_cases r, fun fault hfault => ?_, ?_, fun q v hwrite => ?_, fun s hshape => ?_,
    fun t hrep => hrep.serve hfew ⟨h.refuses, r⟩⟩
  · rw [perform_of_error hfault]
    exact ⟨fun _ => rfl, rfl, rfl⟩
  · rintro q rfl
    exact perform_read h q
  · have hanswer := answer_write (h := h) hwrite
    cases hplace : h.place? q with
    | some p =>
      rw [hplace] at hanswer
      have hperform := perform_of_ok hanswer
      rw [hperform]
      exact Or.inl ⟨p, rfl, rfl, written_change (hasPlace_of_eq hplace).1 v⟩
    | none =>
      -- There is no such place, so the write fails with the fault of the read.
      obtain ⟨fault, hunheld⟩ := unheld_of_write hwrite (h.shape? q.id)
      rw [hplace, hunheld] at hanswer
      refine Or.inr ⟨fault, rfl, ?_, ?_⟩
      · rw [read_eq, hplace, hunheld]
        rfl
      · rw [perform_of_refused hanswer]
  · rcases answer_allocate (h := h) hshape with ⟨fault, hanswer⟩ | hanswer
    · exact Or.inr ⟨fault, by rw [perform_of_refused hanswer]⟩
    · rw [perform_of_ok hanswer]
      exact Or.inl ⟨rfl, allocated_add hfew s r.fill⟩

/-- The last cell of a grid of two rows and three columns, set by its index and seen by its row and column. -/
theorem aliased_write_respects_reads :
    (after {} mixedCalls).objectCount < 2 ^ 64 ∧
      (after {} mixedCalls).read (.cell 2025 1 2) = .ok (.value (.object 2023)) ∧
      ((after {} mixedCalls).perform (.setIndex 2025 5 (.int 7))).2.read (.cell 2025 1 2) = .ok (.value (.int 7)) ∧
      ((after {} mixedCalls).perform (.setIndex 2025 5 (.int 7))).2.read (.cell 2025 1 3) =
        (after {} mixedCalls).read (.cell 2025 1 3) := by
  have hfew : (after {} mixedCalls).objectCount < 2 ^ 64 := by decide +kernel
  have hplace : (after {} mixedCalls).place? (.cell 2025 1 2) = some (.cell 2025 5) := by decide +kernel
  have hindex : (after {} mixedCalls).place? (.index 2025 5) = some (.cell 2025 5) := by decide +kernel
  have hnowhere : (after {} mixedCalls).place? (.cell 2025 1 3) = none := by decide +kernel
  obtain ⟨-, -, -, hwrites, -⟩ := requests_respect_reads (after {} mixedCalls) (.setIndex 2025 5 (.int 7)) hfew
  rcases hwrites (.index 2025 5) (.int 7) rfl with ⟨p, hp, -, hwritten⟩ | ⟨fault, hnone, -⟩
  · obtain rfl := Option.some.inj (hp.symm.trans hindex)
    exact ⟨hfew, rfl, hwritten.there _ hplace, hwritten.elsewhere _ (by rw [hnowhere]; nofun)⟩
  · cases hnone.symm.trans hindex

end

end Bytecode.Heap
