import Bytecode.Proofs.Heap.Tables
import Bytecode.Proofs.Machine.Operands

/-! What can be asked of a heap, and what holds of it whatever it has been asked: its objects are numbered without gaps in the
    order of their allocation, and each keeps the shape that it was allocated with. -/

namespace Bytecode.Heap

/-- What can be asked of a heap. -/
inductive Request where
  | newStruct
  | addField (id : Int64) (field : String)
  | setField (id : Int64) (field : String) (v : Value)
  | getField (id : Int64) (field : String)
  | newArray (length : Int64) (fill : Value)
  | newGrid (rows columns : Int64) (fill : Value)
  | arrayLength (id : Int64)
  | getIndex (id index : Int64)
  | setIndex (id index : Int64) (v : Value)
  | getCell (id row column : Int64)
  | setCell (id row column : Int64) (v : Value)

inductive Reply where
  | done
  | created (id : Int64)
  | value (v : Value)
  | length (n : Nat)

/-- The reply to a request, with the change that is to be made for it. -/
def answer (h : Heap) : Request → Except Fault (Reply × Option Change)
  | .newStruct => pure (.created h.nextId, some Heap.newStruct)
  | .addField id field => (fun c => (.done, some c)) <$> h.addField id field
  | .setField id field v => (fun c => (.done, some c)) <$> h.setField id field v
  | .getField id field => (fun v => (.value v, none)) <$> h.getField id field
  | .newArray length fill => (fun c => (.created h.nextId, some c)) <$> h.newArray length fill
  | .newGrid rows columns fill => (fun c => (.created h.nextId, some c)) <$> h.newGrid rows columns fill
  | .arrayLength id => (fun n => (.length n, none)) <$> h.arrayLength id
  | .getIndex id index => (fun v => (.value v, none)) <$> h.getIndex id index
  | .setIndex id index v => (fun c => (.done, some c)) <$> h.setIndex id index v
  | .getCell id row column => (fun v => (.value v, none)) <$> h.getCell id row column
  | .setCell id row column v => (fun c => (.done, some c)) <$> h.setCell id row column v

/-- The reply to a request and the heap behind it. A request that is refused leaves the heap as it was. -/
def perform (h : Heap) (r : Request) : Except Fault Reply × Heap :=
  match h.answer r with
  | .ok (reply, change) => (.ok reply, change.elim h h.apply)
  | .error fault => (.error fault, h)

/-- A request at a time when there is no memory for arrays of some lengths. -/
structure Call where
  refuses : Nat → Bool
  request : Request

def serve (h : Heap) (c : Call) : Except Fault Reply × Heap :=
  perform { h with refuses := c.refuses } c.request

/-- The heap behind calls. -/
def after (h : Heap) (calls : List Call) : Heap :=
  calls.foldl (fun h c => (h.serve c).2) h

/-- The replies to calls. -/
def replies (h : Heap) : List Call → List (Except Fault Reply)
  | [] => []
  | c :: rest => (h.serve c).1 :: replies (h.serve c).2 rest

/-- The number of the object that was allocated. -/
def created? : Except Fault Reply → Option Int64
  | .ok (.created id) => some id
  | _ => none

/-- The shape of the object that a request is to allocate. -/
def Request.shape? : Request → Option Shape
  | .newStruct => some .struct
  | .newArray length _ => some (.array length.toInt.toNat none)
  | .newGrid rows columns _ => some (.array (rows.toInt.toNat * columns.toInt.toNat) (some columns.toInt.toNat))
  | _ => none

/-! ### One request -/

section
variable {h : Heap} {id : Int64} {c : Change}

theorem newCells_shape {length : Nat} {fill : Value} {columns : Option Nat} (hc : h.newCells length fill columns = .ok c) :
    c.shape? = some (.array length columns) := by
  unfold newCells at hc
  split at hc
  · cases hc
  · cases hc
    simp [Change.shape?, Object.shape]

theorem newArray_shape {length : Int64} {fill : Value} (hc : h.newArray length fill = .ok c) :
    c.shape? = some (.array length.toInt.toNat none) := by
  unfold newArray at hc
  split at hc
  · cases hc
  · exact newCells_shape hc

theorem newGrid_shape {rows columns : Int64} {fill : Value} (hc : h.newGrid rows columns fill = .ok c) :
    c.shape? = some (.array (rows.toInt.toNat * columns.toInt.toNat) (some columns.toInt.toNat)) := by
  unfold newGrid at hc
  split at hc
  · cases hc
  · dsimp only at hc
    split at hc
    · cases hc
    · exact newCells_shape hc

theorem setField_shape {field : String} {v : Value} (hc : h.setField id field v = .ok c) : c.shape? = none := by
  obtain ⟨_, -, hc⟩ := Except.bind_eq_ok_iff.mp hc
  cases hc
  rfl

theorem setIndex_shape {index : Int64} {v : Value} (hc : h.setIndex id index v = .ok c) : c.shape? = none := by
  obtain ⟨_, -, hc⟩ := Except.bind_eq_ok_iff.mp hc
  obtain ⟨_, -, hc⟩ := Except.bind_eq_ok_iff.mp hc
  cases hc
  rfl

theorem setCell_shape {row column : Int64} {v : Value} (hc : h.setCell id row column v = .ok c) : c.shape? = none := by
  obtain ⟨_, -, hc⟩ := Except.bind_eq_ok_iff.mp hc
  obtain ⟨_, -, hc⟩ := Except.bind_eq_ok_iff.mp hc
  cases hc
  rfl

/-- A request is granted either as an allocation, of an object of the shape it asks for with the next number, or as
something that allocates nothing. -/
theorem answer_cases {r : Request} {reply : Reply} {change : Option Change} (ha : h.answer r = .ok (reply, change)) :
    (∃ s, r.shape? = some s ∧ reply = .created h.nextId ∧ change.bind Change.shape? = some s) ∨
      ((∀ id, reply ≠ .created id) ∧ change.bind Change.shape? = none) := by
  cases r with
  | newStruct =>
    cases ha
    exact Or.inl ⟨.struct, rfl, rfl, rfl⟩
  | newArray length fill =>
    obtain ⟨c, hc, heq⟩ := Except.map_eq_ok_iff.mp ha
    cases heq
    exact Or.inl ⟨_, rfl, rfl, newArray_shape hc⟩
  | newGrid rows columns fill =>
    obtain ⟨c, hc, heq⟩ := Except.map_eq_ok_iff.mp ha
    cases heq
    exact Or.inl ⟨_, rfl, rfl, newGrid_shape hc⟩
  | getField | arrayLength | getIndex | getCell =>
    obtain ⟨_, -, heq⟩ := Except.map_eq_ok_iff.mp ha
    cases heq
    exact Or.inr ⟨nofun, rfl⟩
  -- Writes keep the object in its shape, so they create nothing.
  | addField | setField =>
    obtain ⟨c, hc, heq⟩ := Except.map_eq_ok_iff.mp ha
    cases heq
    exact Or.inr ⟨nofun, setField_shape hc⟩
  | setIndex =>
    obtain ⟨c, hc, heq⟩ := Except.map_eq_ok_iff.mp ha
    cases heq
    exact Or.inr ⟨nofun, setIndex_shape hc⟩
  | setCell =>
    obtain ⟨c, hc, heq⟩ := Except.map_eq_ok_iff.mp ha
    cases heq
    exact Or.inr ⟨nofun, setCell_shape hc⟩

theorem shapes_change (change : Option Change) :
    shapes (change.elim h h.apply) = h.shapes ++ (change.bind Change.shape?).toList := by
  cases change with
  | none => exact (List.append_nil _).symm
  | some c => exact shapes_apply h c

/-- The numbers and shapes after a call: those from before, and those of the object that was allocated, if one was. -/
theorem serve_cases (h : Heap) (c : Call) :
    (∃ s, c.request.shape? = some s ∧ (h.serve c).1 = .ok (.created h.nextId) ∧
        (h.serve c).2.shapes = h.shapes ++ [s]) ∨
      (created? (h.serve c).1 = none ∧ (h.serve c).2.shapes = h.shapes) := by
  unfold serve perform
  cases ha : answer { h with refuses := c.refuses } c.request with
  | error fault => exact Or.inr ⟨rfl, rfl⟩
  | ok r =>
    obtain ⟨reply, change⟩ := r
    rcases answer_cases ha with ⟨s, hs, rfl, hchange⟩ | ⟨hreply, hchange⟩
    · refine Or.inl ⟨s, hs, rfl, ?_⟩
      rw [shapes_change, hchange]
      rfl
    · refine Or.inr ⟨?_, ?_⟩
      · cases reply with
        | created id => exact absurd rfl (hreply id)
        | done | value | length => rfl
      · rw [shapes_change, hchange]
        exact List.append_nil _

end

/-! ### Any number of requests -/

section
variable {h : Heap} {id : Int64} {s : Shape}

theorem after_append (h : Heap) (u v : List Call) : h.after (u ++ v) = (h.after u).after v :=
  List.foldl_append

/-- Behind calls there are the objects from before with the same shapes, and behind them those that were allocated. -/
theorem shapes_after (h : Heap) (calls : List Call) :
    ∃ new, (h.after calls).shapes = h.shapes ++ new ∧ ∀ s ∈ new, ∃ r : Request, r.shape? = some s := by
  induction calls generalizing h with
  | nil => exact ⟨[], (List.append_nil _).symm, nofun⟩
  | cons c rest ih =>
    obtain ⟨new, hnew, hrequested⟩ := ih (h.serve c).2
    rcases serve_cases h c with ⟨s, hs, -, hshapes⟩ | ⟨-, hshapes⟩
    · refine ⟨s :: new, ?_, ?_⟩
      · rw [after, List.foldl_cons, ← after, hnew, hshapes, List.append_assoc]
        rfl
      · intro s' hs'
        rcases List.mem_cons.mp hs' with rfl | hs'
        · exact ⟨c.request, hs⟩
        · exact hrequested s' hs'
    · exact ⟨new, by rw [after, List.foldl_cons, ← after, hnew, hshapes], hrequested⟩

/-- An object keeps its shape for good. -/
theorem shape?_after (hs : h.shape? id = some s) (calls : List Call) : (h.after calls).shape? id = some s := by
  obtain ⟨new, hnew, -⟩ := shapes_after h calls
  rw [shape?_eq] at hs ⊢
  obtain ⟨hlt, -⟩ := List.getElem?_eq_some_iff.mp hs
  rw [hnew, List.getElem?_append_left hlt, hs]

theorem objectCount_le_after (h : Heap) (calls : List Call) : h.objectCount ≤ (h.after calls).objectCount := by
  obtain ⟨new, hnew, -⟩ := shapes_after h calls
  rw [← length_shapes, ← length_shapes, hnew, List.length_append]
  exact Nat.le_add_right _ _

/-- A call counts one more object if it allocates one. -/
theorem objectCount_serve (h : Heap) (c : Call) :
    (h.serve c).2.objectCount = h.objectCount + if (created? (h.serve c).1).isSome then 1 else 0 := by
  rcases serve_cases h c with ⟨s, -, hreply, hshapes⟩ | ⟨hreply, hshapes⟩
  · rw [← length_shapes, ← length_shapes, hshapes, hreply]
    simp [created?]
  · rw [objectCount_congr hshapes, hreply]
    rfl

/-- The numbers that are given to new objects follow one another. -/
theorem created_replies (h : Heap) (calls : List Call) :
    ∃ count, (h.after calls).objectCount = h.objectCount + count ∧
      (h.replies calls).filterMap created? =
        (List.range' h.objectCount count).map fun n => Int64.ofNat (firstId + n) := by
  induction calls generalizing h with
  | nil => exact ⟨0, rfl, rfl⟩
  | cons c rest ih =>
    obtain ⟨count, hcount, hcreated⟩ := ih (h.serve c).2
    have hserve := objectCount_serve h c
    rw [after, List.foldl_cons, ← after, replies]
    rcases serve_cases h c with ⟨s, -, hreply, -⟩ | ⟨hreply, -⟩
    · rw [hreply] at hserve
      simp only [created?, Option.isSome_some, if_true] at hserve
      refine ⟨count + 1, by omega, ?_⟩
      rw [hreply, List.filterMap_cons_some (f := created?) (b := h.nextId) rfl, hcreated, hserve, List.range'_succ,
        List.map_cons]
      rfl
    · rw [hreply] at hserve
      simp only [Option.isSome_none, Bool.false_eq_true, if_false, Nat.add_zero] at hserve
      exact ⟨count, by omega, by rw [List.filterMap_cons_none hreply, hcreated, hserve]⟩

end

/-- Calls of every kind, some of which are refused: for a negative length, for want of room, beyond the end of an array, or
because there is no such struct. -/
def mixedCalls : List Call := [
  ⟨beyond 8, .newStruct⟩, ⟨beyond 8, .addField 2023 "x"⟩, ⟨beyond 8, .newArray (-1) .null⟩,
  ⟨beyond 8, .newArray 3 .null⟩, ⟨beyond 8, .setIndex 2024 3 .null⟩,
  ⟨beyond 5, .newGrid 2 3 .null⟩, ⟨beyond 6, .newGrid 2 3 .null⟩, ⟨beyond 8, .setCell 2025 1 2 (.object 2023)⟩,
  ⟨beyond 8, .setField 2025 "x" .null⟩, ⟨beyond 0, .setField 2023 "x" (.object 2024)⟩]

end Bytecode.Heap
