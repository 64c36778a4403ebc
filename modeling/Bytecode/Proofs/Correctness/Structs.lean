import Bytecode.Proofs.Correctness.Expr
import Bytecode.Proofs.Heap.Reads
import Bytecode.Proofs.Lowering.Reuse

/-! New structs. The code of a new struct makes a struct without fields and then, field by field, adds the field and sets it to
    null. From the first instruction to the last the heap is the old one with a single struct behind its objects
    (`Heap.withStruct`), and each group of instructions puts one field into that struct. -/

namespace Bytecode

/-! ### A struct behind the objects -/

namespace Heap

/-- The heap with a struct behind its objects. -/
def withStruct (h : Heap) (fields : Table Value) : Heap :=
  h.apply (.add (.struct fields))

section
variable {h : Heap} (hfew : h.objectCount < 2 ^ 64) (fields : Table Value)
include hfew

theorem find?_withStruct (id : Int64) :
    (h.withStruct fields).find? id = if id = h.nextId then some (.struct fields) else h.find? id :=
  find?_add hfew _ id

theorem fields_withStruct : (h.withStruct fields).fields h.nextId = .ok fields := by
  rw [Heap.fields, find?_withStruct hfew, if_pos rfl]

theorem setField_withStruct (field : String) (v : Value) :
    (h.withStruct fields).setField h.nextId field v = .ok (.setField h.nextId field v) := by
  rw [setField, fields_withStruct hfew]
  rfl

/-- Setting a field of the struct changes nothing in front of it. -/
theorem apply_setField_withStruct (field : String) (v : Value) :
    (h.withStruct fields).apply (.setField h.nextId field v) = h.withStruct (fields.put field v) := by
  have hmodify : (h.objects.push (.struct fields)).modify h.objects.size (.putField field v) =
      h.objects.push (.struct (fields.put field v)) := by
    ext i hi hi'
    · simp
    · grind [Object.putField]
  simp only [withStruct, apply, update, indexOf_nextId hfew, objectCount, hmodify]

end
end Heap

namespace Correctness
open Evaluation Lowering

/-! ### Fields -/

/-- The fields of a struct behind a row of groups of instructions, each of which adds a field and sets it to null. -/
def blanked (fields : Table Value) (names : List String) : Table Value :=
  names.foldl (fun fields name => (fields.put name .null).put name .null) fields

theorem get?_blanked (fields : Table Value) (names : List String) (name : String) :
    (blanked fields names).get? name = if name ∈ names then some .null else fields.get? name := by
  induction names generalizing fields with
  | nil => rfl
  | cons first rest ih =>
    rw [blanked, List.foldl_cons, ← blanked, ih, Table.get?_put, Table.get?_put]
    grind

section
variable {heap : Heap} (hfew : heap.objectCount < 2 ^ 64) (function : String) (input : Input) (output : Output)
include hfew

theorem setField_done (fields : Table Value) (name : String) (v : Value) :
    setField function (.object heap.nextId) name v ⟨heap.withStruct fields, input, output⟩ =
      .done () ⟨heap.withStruct (fields.put name v), input, output⟩ := by
  simp [setField, Effect.compute, Value.needObject, heap.setField_withStruct hfew, World.change,
    heap.apply_setField_withStruct hfew, bind, Except.bind, pure, Except.pure]

/-- Adding fields to the struct behind the objects goes through and leaves all other objects as they are. -/
theorem addFields_done (fields : Table Value) (names : List String) :
    addFields function (.object heap.nextId) names ⟨heap.withStruct fields, input, output⟩ =
      .done () ⟨heap.withStruct (blanked fields names), input, output⟩ := by
  induction names generalizing fields with
  | nil => rfl
  | cons name rest ih =>
    have hadd : addField function (.object heap.nextId) name ⟨heap.withStruct fields, input, output⟩ = _ :=
      setField_done hfew function input output fields name .null
    have hset := setField_done hfew function input output (fields.put name .null) name .null
    show Effect.bind _ _ _ = _
    rw [Effect.bind, hadd]
    show Effect.bind _ _ _ = _
    rw [Effect.bind, hset]
    exact ih _

theorem newStruct_done (names : List String) :
    (do
      let v ← .compute function fun heap => .ok (.object heap.nextId, some Heap.newStruct)
      addFields function v names
      return v : Effect Value) ⟨heap, input, output⟩ =
        .done (.object heap.nextId) ⟨heap.withStruct (blanked {} names), input, output⟩ := by
  show Effect.bind (addFields function (.object heap.nextId) names) _ ⟨heap.withStruct {}, input, output⟩ = _
  rw [Effect.bind, addFields_done hfew]
  rfl

end

/-! ### The code of a new struct -/

/-- The code of a new struct leaves its number on the operands and the struct with its fields behind the objects. -/
theorem newStructCode_reaches (c : Chunk) {s : State} {f : Frame} {callers : List Frame} {names : List String}
    (hframes : s.frames = f :: callers) (hat : At f (newStructCode names)) (hfew : s.heap.objectCount < 2 ^ 64) :
    State.Reaches c s { s with
      frames := f.moved (newStructCode names).length (.object s.heap.nextId :: f.stack) :: callers
      heap := s.heap.withStruct (blanked {} names) } := by
  -- The code does the same in every function and in every scope, so any setting with this frame will do.
  let k : Setting :=
    { chunk := c
      context :=
        { layouts := {}, program := { functions := [] }, function := f.function.name, rounds := 0
          call := fun _ _ => .wrong } }
  have hf : k.Frames ⟨[], 0⟩ [] f := ⟨rfl, rfl, nofun⟩
  have hs : s = stateOf (worldOf s) (f :: callers) := by
    rw [← hframes]
    rfl
  have hmeets := does_newStruct names f callers (worldOf s) f.stack hat hf rfl
  have hvalue := newStruct_done hfew f.function.name s.input s.output names
  rw [show worldOf s = ⟨s.heap, s.input, s.output⟩ from rfl, hvalue] at hmeets
  obtain ⟨frames, hreach, rfl⟩ := hmeets
  rw [hs]
  exact hreach

theorem getField_eq_ok_iff {h : Heap} (hfew : h.objectCount < 2 ^ 64) (names : List String) (field : String) (v : Value) :
    (h.withStruct (blanked {} names)).getField h.nextId field = .ok v ↔ field ∈ names ∧ v = .null := by
  have hget : (blanked {} names).get? field = if field ∈ names then some .null else none := get?_blanked _ _ _
  simp only [Heap.getField, h.fields_withStruct hfew, Except.bind_eq_ok_iff, Except.ok.injEq, exists_eq_left', hget]
  by_cases hmem : field ∈ names
  · simp [hmem, pure, Except.pure, eq_comm]
  · simp [hmem, throw, throwThe, MonadExceptOf.throw]

/-- A struct that is known to a generator can be made anew in any frame and on any heap whose numbers are not used up. Its code
ends behind itself without a fault, leaves the next number of the heap on the operands and changes nothing else but the
heap, which has one struct more: each field of the last definition is there and holds null, and no other field is there. -/
theorem new_struct_has_declared_fields (programs : List Tree.Program) (scope : Scope) (name : String) (declared : List String)
    (hdeclared : lastFields? (programs.flatMap fun p => p.structs) name = some declared) :
    ∃ code, exprCode (Generator.after programs).layouts scope (.newStruct name) = .ok code ∧
      ∀ (c : Chunk) (s : State) (f : Frame) (callers : List Frame), s.frames = f :: callers → At f code →
        s.heap.objectCount < 2 ^ 64 → ∃ (fields : Table Value) (t : State),
          State.Reaches c s t ∧
          t = { s with
            frames := f.moved code.length (.object s.heap.nextId :: f.stack) :: callers
            heap := s.heap.apply (.add (.struct fields)) } ∧
          (∀ field, fields.get? field = if field ∈ declared then some .null else none) ∧
          s.heap.find? s.heap.nextId = none ∧
          (∀ id, t.heap.find? id = if id = s.heap.nextId then some (.struct fields) else s.heap.find? id) ∧
          ∀ field v, t.heap.getField s.heap.nextId field = .ok v ↔ field ∈ declared ∧ v = .null := by
  have hlayout : (Generator.after programs).layouts.fields name = .ok declared := by
    rw [Layouts.fields_eq_ok_iff, Generator.layouts_after, Layouts.get?_register, hdeclared]
  refine ⟨newStructCode declared, by rw [exprCode, hlayout]; rfl, fun c s f callers hframes hat hfew => ?_⟩
  exact ⟨blanked {} declared, _, newStructCode_reaches c hframes hat hfew, rfl, get?_blanked {} declared,
    Heap.find?_nextId hfew, Heap.find?_withStruct hfew _, getField_eq_ok_iff hfew declared⟩

/-- Two definitions of a struct, the later one with a field that it names twice. -/
def twiceDefined : List Tree.Program :=
  [["old"], ["left", "right", "left"]].map fun names =>
    { structs := [⟨"Pair", names.map fun name => ⟨name, { name := "int" }⟩⟩], functions := [] }

/-- A frame in front of the code of a new struct. -/
def pairFrame : Frame :=
  { function := ⟨"main", 0, (newStructCode ["left", "right", "left"]).toArray⟩, stack := [.int 7] }

theorem new_pair_has_later_fields :
    lastFields? (twiceDefined.flatMap fun p => p.structs) "Pair" = some ["left", "right", "left"] ∧
      At pairFrame (newStructCode ["left", "right", "left"]) ∧ ∃ t, State.Reaches {} { frames := [pairFrame] } t ∧
        t.frames = [pairFrame.moved 16 [.object 2023, .int 7]] ∧ t.heap.getField 2023 "left" = .ok .null ∧
        ¬∃ v, t.heap.getField 2023 "old" = .ok v := by
  have hdeclared : lastFields? (twiceDefined.flatMap fun p => p.structs) "Pair" = some ["left", "right", "left"] := by decide
  have hat : At pairFrame (newStructCode ["left", "right", "left"]) := by simp [At, Placed, pairFrame, newStructCode]
  obtain ⟨code, hcode, hrun⟩ := new_struct_has_declared_fields twiceDefined Scope.start "Pair" _ hdeclared
  obtain rfl : newStructCode ["left", "right", "left"] = code := Except.ok.inj hcode
  obtain ⟨fields, t, hreach, rfl, -, -, -, hget⟩ := hrun {} { frames := [pairFrame] } pairFrame [] rfl hat (by decide)
  refine ⟨hdeclared, hat, _, hreach, rfl, (hget "left" .null).mpr ⟨by decide, rfl⟩, ?_⟩
  rintro ⟨v, hv⟩
  exact absurd ((hget "old" v).mp hv).1 (by decide)

end Correctness
end Bytecode
