import Bytecode.Proofs.Heap.References
import Bytecode.Proofs.Lowering.Instrs
import Bytecode.Proofs.Machine.Effect

/-! No reference dangles. Whatever chunks without references of their own have been run on a machine, and however these runs
    ended, each object that a state of a run refers to is in just one of the tables of the heap. So if an instruction
    fails for want of a struct, it was given an array, and if it fails for want of an array, a struct. -/

namespace Bytecode

/-- The state refers to the object with a number: from the operands or the slots of a frame, from a field of a struct or from
a cell of an array. -/
inductive State.Refers (s : State) (id : Int64) : Prop where
  | operand {f : Frame} (frame : f ∈ s.frames) (held : .object id ∈ f.stack)
  | slot {f : Frame} (frame : f ∈ s.frames) (held : .object id ∈ f.locals)
  | field {owner : Int64} {fields : Table Value} {name : String} (struct : s.heap.find? owner = some (.struct fields))
    (held : fields.get? name = some (.object id))
  | cell {owner : Int64} {cells : Array Value} {columns : Option Nat}
    (array : s.heap.find? owner = some (.array cells columns)) (held : .object id ∈ cells)

/-- The heap has every object that the state refers to. -/
def State.NoDangling (s : State) : Prop :=
  ∀ id, s.Refers id → s.heap.Has id

/-- A machine on which any number of chunks have been run. Between runs all but the objects of its heap may be replaced. -/
inductive Machine.Used : Machine → Prop where
  | new : Used {}
  | adjusted {m m' : Machine} (used : Used m) (same : m'.heap.objects = m.heap.objects) : Used m'
  | ran {m m' : Machine} {c : Chunk} {bound : Nat} {result : Except Failure Unit} (used : Used m) (free : c.ObjectFree)
    (run : m.run? c bound = some (result, m')) : Used m'

/-! ### States -/

def Frame.Valid (h : Heap) (f : Frame) : Prop :=
  f.stack.Valid h ∧ Operands.Valid h f.locals

/-- All values in the frames and in the heap are valid. -/
structure State.Closed (s : State) : Prop where
  frames : ∀ f ∈ s.frames, f.Valid s.heap
  heap : s.heap.Closed

def Outcome.Closed : Outcome → Prop
  | .running s => s.Closed
  | .faulted fault s => s.Closed ∧ fault.Honest s.heap

theorem State.Closed.noDangling {s : State} (hs : s.Closed) : s.NoDangling := by
  rintro id (⟨hframe, hheld⟩ | ⟨hframe, hheld⟩ | ⟨hstruct, hheld⟩ | ⟨harray, hheld⟩)
  · exact (hs.frames _ hframe).1 _ hheld
  · exact (hs.frames _ hframe).2 _ hheld
  · exact hs.heap _ (Heap.mem_of_find? hstruct) (.object id) ⟨_, hheld⟩
  · exact hs.heap _ (Heap.mem_of_find? harray) (.object id) hheld

section
variable {h : Heap} {stack : Operands} {f : Frame} {v : Value}

theorem Frame.Valid.apply (hf : f.Valid h) (c : Change) : f.Valid (h.apply c) :=
  ⟨hf.1.apply c, hf.2.apply c⟩

theorem Operands.Valid.storeSlot (hv : v.Valid h) {locals : Operands} (hlocals : locals.Valid h) (slot : Nat) :
    Operands.Valid h (storeSlot v slot locals) := by
  intro w hw
  obtain ⟨i, hi⟩ := List.mem_iff_getElem?.mp hw
  rw [getElem?_storeSlot] at hi
  split at hi
  · cases hi
    exact hv
  · split at hi
    · cases hget : locals[i]? with
      | none =>
        rw [hget] at hi
        cases hi
        trivial
      | some w' =>
        rw [hget] at hi
        cases hi
        exact hlocals w' (List.mem_of_getElem? hget)
    · exact hlocals w (List.mem_of_getElem? hi)

theorem Operands.Valid.head (hstack : stack.Valid h) : (stack.head?.getD .null).Valid h := by
  cases stack with
  | nil => trivial
  | cons v rest => exact hstack v List.mem_cons_self

end

/-! ### Steps -/

namespace State.Closed
variable {c : Chunk} {s t : State} {f : Frame} {callers : List Frame}

theorem withFrames (hs : s.Closed) (hf : f.Valid s.heap) (hcallers : ∀ g ∈ callers, g.Valid s.heap) :
    (s.withFrames (f :: callers)).Closed :=
  ⟨List.forall_mem_cons.mpr ⟨hf, hcallers⟩, hs.heap⟩

theorem op (hs : s.Closed) (hf : f.Valid s.heap) (hcallers : ∀ g ∈ callers, g.Valid s.heap) {o : Operation}
    (ho : o.objectFree = true) : (s.exec c f callers (.op o)).Closed := by
  rcases (Operation.apply_yields hs.heap hf.1 ho).cases with ⟨⟨stack, change⟩, hr, hsettled⟩ | ⟨fault, hr, hhonest⟩
  · simp only [State.exec, hr]
    cases change with
    | none => exact hs.withFrames ⟨hsettled, hf.2⟩ hcallers
    | some change =>
      obtain ⟨hchange, hstack⟩ := hsettled
      refine ⟨List.forall_mem_cons.mpr ⟨⟨hstack, hf.2.apply change⟩, fun g hg => ?_⟩, hs.heap.apply hchange⟩
      exact (hcallers g hg).apply change
  · simp only [State.exec, hr]
    exact ⟨hs, hhonest⟩

theorem call (hs : s.Closed) (hf : f.Valid s.heap) (hcallers : ∀ g ∈ callers, g.Valid s.heap) (name : String) :
    (s.call c f callers name).Closed := by
  unfold State.call
  cases c.get? name with
  | none => exact ⟨hs, trivial⟩
  | some g =>
    dsimp only
    split
    · exact ⟨hs, trivial⟩
    · have hcallee : Operands.Valid s.heap (f.stack.take g.arity).reverse := by
        intro v hv
        exact hf.1 v (List.mem_of_mem_take (List.mem_reverse.mp hv))
      have hcaller : Operands.Valid s.heap (f.stack.drop g.arity) := fun v hv => hf.1 v (List.mem_of_mem_drop hv)
      refine hs.withFrames ⟨hcallee, fun v hv => absurd hv List.not_mem_nil⟩ ?_
      exact List.forall_mem_cons.mpr ⟨⟨hcaller, hf.2⟩, hcallers⟩

theorem leave (hs : s.Closed) (hf : f.Valid s.heap) (hcallers : ∀ g ∈ callers, g.Valid s.heap) :
    (s.leave f callers).Closed := by
  rw [leave_eq]
  cases callers with
  | nil => exact ⟨fun g hg => absurd hg List.not_mem_nil, hs.heap⟩
  | cons g rest =>
    obtain ⟨hg, hrest⟩ := List.forall_mem_cons.mp hcallers
    exact hs.withFrames ⟨.cons hf.1.head hg.1, hg.2⟩ hrest

/-- An instruction without a reference of its own leads to valid values again, also where it fails. -/
theorem exec (hs : s.Closed) (hf : f.Valid s.heap) (hcallers : ∀ g ∈ callers, g.Valid s.heap) {i : Instr}
    (hi : i.objectFree = true) : (s.exec c f callers i).Closed := by
  cases i with
  -- New references come from operations alone; the other instructions move values or drop them.
  | op o => exact hs.op hf hcallers hi
  | load slot =>
    cases hget : f.locals[slot]? with
    | none =>
      simp only [State.exec, hget]
      exact ⟨hs, trivial⟩
    | some v =>
      simp only [State.exec, hget]
      exact hs.withFrames ⟨.cons (hf.2 v (List.mem_of_getElem? hget)) hf.1, hf.2⟩ hcallers
  | store slot =>
    rcases (Yields.pop hf.1).cases with ⟨⟨v, stack⟩, hpop, hv, hstack⟩ | ⟨fault, hpop, hhonest⟩
    · simp only [State.exec, hpop]
      exact hs.withFrames ⟨hstack, .storeSlot hv hf.2 slot⟩ hcallers
    · simp only [State.exec, hpop]
      exact ⟨hs, hhonest⟩
  | jump target => exact hs.withFrames hf hcallers
  | jumpUnless target =>
    rcases (Yields.popBool hf.1).cases with ⟨⟨b, stack⟩, hpop, hstack⟩ | ⟨fault, hpop, hhonest⟩
    · simp only [State.exec, hpop]
      exact hs.withFrames ⟨hstack, hf.2⟩ hcallers
    · simp only [State.exec, hpop]
      exact ⟨hs, hhonest⟩
  | call name => exact hs.call hf hcallers name
  | ret => exact hs.leave hf hcallers
  | write =>
    rcases (Yields.pop hf.1).cases with ⟨⟨v, stack⟩, hpop, -, hstack⟩ | ⟨fault, hpop, hhonest⟩
    · simp only [State.exec, hpop]
      split
      · exact ⟨List.forall_mem_cons.mpr ⟨⟨hstack, hf.2⟩, hcallers⟩, hs.heap⟩
      · exact ⟨⟨hs.frames, hs.heap⟩, trivial⟩
    · simp only [State.exec, hpop]
      exact ⟨hs, hhonest⟩
  | read =>
    simp only [State.exec]
    split
    · exact ⟨List.forall_mem_cons.mpr ⟨⟨.cons trivial hf.1, hf.2⟩, hcallers⟩, hs.heap⟩
    · exact ⟨⟨hs.frames, hs.heap⟩, trivial⟩

theorem step (hs : s.Closed) (hframes : s.frames = f :: callers) {i : Instr} (hi : i.objectFree = true) :
    (s.step c f callers i).Closed := by
  have hvalid := hs.frames
  rw [hframes] at hvalid
  obtain ⟨hf, hcallers⟩ := List.forall_mem_cons.mp hvalid
  exact hs.exec (f := { f with pc := f.pc + 1 }) hf hcallers hi

end State.Closed

/-! ### Runs -/

section
variable {m m' : Machine} {c : Chunk} {s t : State}

/-- The instructions of a run are those of its chunk. -/
theorem Machine.Visits.objectFree (h : m.Visits c s) (hfree : c.ObjectFree) {f : Frame} {callers : List Frame} {i : Instr}
    (hnext : s.next? = some (f, callers, i)) : s.frames = f :: callers ∧ i.objectFree = true := by
  obtain ⟨hframes, hi⟩ := State.next?_eq_some_iff.mp hnext
  exact ⟨hframes, hfree _ (State.top_mem h hframes) i (Array.mem_of_getElem? hi)⟩

theorem Machine.Visits.closed (h : m.Visits c s) (hfree : c.ObjectFree) (hm : m.heap.Closed) : s.Closed := by
  refine h.induction (P := State.Closed) (fun main _ => ?_) fun s t hvisits hnext hs => ?_
  · refine ⟨fun f hf => ?_, hm⟩
    obtain rfl := List.mem_singleton.mp hf
    exact ⟨fun v hv => absurd hv List.not_mem_nil, fun v hv => absurd hv List.not_mem_nil⟩
  · obtain ⟨f, callers, i, hnext, hstep⟩ := hnext
    obtain ⟨hframes, hi⟩ := hvisits.objectFree hfree hnext
    have hclosed := hs.step (c := c) hframes hi
    rw [hstep] at hclosed
    exact hclosed

theorem Machine.Visits.fails (h : m.Visits c s) (hfree : c.ObjectFree) (hm : m.heap.Closed) {failure : Failure}
    (hfails : s.Fails c failure t) : t.Closed ∧ failure.fault.Honest t.heap := by
  obtain ⟨f, callers, i, hnext, hstep, -⟩ := hfails
  obtain ⟨hframes, hi⟩ := h.objectFree hfree hnext
  have hclosed := (h.closed hfree hm).step (c := c) hframes hi
  rw [hstep] at hclosed
  exact hclosed

theorem Machine.finish_heap (m : Machine) (e : Ending) : (m.finish e).2.heap = e.state.heap := by
  unfold finish
  cases e.result with
  | error failure => rfl
  | ok _ =>
    dsimp only
    cases e.state.output.flush <;> rfl

theorem Machine.run?_closed {bound : Nat} {result : Except Failure Unit} (h : m.run? c bound = some (result, m'))
    (hfree : c.ObjectFree) (hm : m.heap.Closed) : m'.heap.Closed := by
  unfold run? at h
  cases hmain : entryPoint? c with
  | none =>
    rw [hmain] at h
    cases h
    exact hm
  | some main =>
    rw [hmain] at h
    obtain ⟨e, he, hfinish⟩ := Option.map_eq_some_iff.mp h
    have hheap := m.finish_heap e
    rw [hfinish] at hheap
    rw [hheap]
    obtain ⟨n, t, -, hsteps, ⟨-, -, rfl⟩ | ⟨failure, hfails, -⟩⟩ := State.run?_eq_some he
    · exact ((visits_of_reaches hmain hsteps.reaches).closed hfree hm).heap
    · exact ((visits_of_reaches hmain hsteps.reaches).fails hfree hm hfails).1.heap

theorem Heap.Closed.congr {h h' : Heap} (hclosed : h.Closed) (hsame : h'.objects = h.objects) : h'.Closed := by
  obtain ⟨objects, refuses⟩ := h
  obtain ⟨objects', refuses'⟩ := h'
  obtain rfl : objects' = objects := hsame
  exact hclosed

theorem Machine.Used.closed (h : m.Used) : m.heap.Closed := by
  induction h with
  | new => exact fun o ho => absurd ho (Array.not_mem_empty o)
  | adjusted _ hsame ih => exact ih.congr hsame
  | ran _ hfree hrun ih => exact run?_closed hrun hfree ih

end

namespace Safety

/-- Whatever has been run on a machine, no state of a run of a chunk without references of its own refers to an object that
the heap does not have, nor does the state that a failing instruction leaves behind. If no struct has the number that an
instruction was given, an array has it, and the other way around. Lowered chunks have no references of their own. -/
theorem references_never_dangle {m : Machine} (hm : m.Used) {c : Chunk} (hc : c.ObjectFree) {s : State}
    (hs : m.Visits c s) :
    s.NoDangling ∧
      (∀ failure t, s.Fails c failure t → t.NoDangling ∧
        (∀ id, failure.fault = .noStruct id → id ∈ t.heap.arrays) ∧
        ∀ id, failure.fault = .noArray id → id ∈ t.heap.structs) ∧
      ∀ (g : Lowering.Generator) (p : Tree.Program) (c' : Chunk), (g.lower p).1 = .ok c' → c'.ObjectFree := by
  refine ⟨(hs.closed hc hm.closed).noDangling, fun failure t hfails => ?_, fun g p c' h => Lowering.lower_objectFree h⟩
  obtain ⟨hclosed, hhonest⟩ := hs.fails hc hm.closed hfails
  refine ⟨hclosed.noDangling, fun id hfault => ?_, fun id hfault => ?_⟩
  · rw [hfault] at hhonest
    exact hhonest
  · rw [hfault] at hhonest
    exact hhonest

/-- A program that keeps an array in a field of a struct and then takes the array for a struct. -/
def mistaken : Tree.Program where
  structs := [⟨"S", [⟨"x", { name := "int" }⟩]⟩]
  functions := [
    { name := "main", result := .void, body := [
        .declare ⟨⟨"a", { name := "S" }⟩, .newStruct "S"⟩,
        .assign ⟨[.plain "a", .plain "x"], .newArray "int" (.one (.literal (.int 2)))⟩,
        .assign ⟨[.plain "a"], .path [.plain "a", .plain "x"]⟩,
        .assign ⟨[.plain "a", .plain "x"], .literal (.int 1)⟩] }]

/-- The chunk of the program. -/
def mistakenChunk : Chunk where
  functions := [
    ⟨"main", 0, #[.op .newStruct, .op .dup, .op (.addField "x"), .op .dup, .op (.push .null), .op (.setField "x"), .store 0,
      .load 0, .op (.push (.int 2)), .op (.push .null), .op .newArray, .op (.setField "x"),
      .load 0, .op (.getField "x"), .store 0,
      .load 0, .op (.push (.int 1)), .op (.setField "x"), .op (.push .null), .ret]⟩]

theorem lower_mistaken : (Lowering.Generator.lower {} mistaken).1 = .ok mistakenChunk := rfl

/-- The machine after a run of the program. -/
def mistakenMachine : Machine :=
  (Machine.run? {} mistakenChunk 30).elim {} Prod.snd

/-- The program fails when it is run for the second time as it did the first time, with the array of the second run. -/
theorem mistaken_references_never_dangle :
    mistakenMachine.Used ∧ ∃ s t failure, mistakenMachine.Visits mistakenChunk s ∧ s.Fails mistakenChunk failure t ∧
      failure.fault = .noStruct 2026 ∧ t.NoDangling ∧ 2026 ∈ t.heap.arrays := by
  have hfree : mistakenChunk.ObjectFree := Lowering.lower_objectFree lower_mistaken
  have hfirst : ∃ failure, Machine.run? {} mistakenChunk 30 = some (.error failure, mistakenMachine) := ⟨_, rfl⟩
  obtain ⟨_, hfirst⟩ := hfirst
  have hused : mistakenMachine.Used := .ran .new hfree hfirst
  have hsecond : ∃ site m, mistakenMachine.run? mistakenChunk 30 = some (.error ⟨.noStruct 2026, site⟩, m) := ⟨_, _, rfl⟩
  obtain ⟨site, m, hsecond⟩ := hsecond
  refine ⟨hused, ?_⟩
  rcases Machine.run?_error hsecond with hentry | ⟨reason, hflush⟩ | ⟨s, t, hvisits, hfails⟩
  · cases hentry
  · cases hflush
  · obtain ⟨-, hfailed, -⟩ := references_never_dangle hused hfree hvisits
    obtain ⟨hdangling, hstruct, -⟩ := hfailed _ t hfails
    exact ⟨s, t, _, hvisits, hfails, rfl, hdangling, hstruct 2026 rfl⟩

end Safety
end Bytecode
