import Bytecode.Proofs.Heap.History
import Bytecode.Proofs.Heap.Shift
import Bytecode.Proofs.Machine.Streams
import Bytecode.Proofs.Safety.References

/-! A machine that has been used runs a chunk as a fresh one does. Its new objects get numbers that are higher by as many as it
    has objects, and this shows in the texts of these numbers only; so the two runs go on alike, step by step, until one of
    the outputs takes such a text or hands it on at the end and the other does not, or the numbers go around. -/

namespace Bytecode

/-! ### States above other objects -/

def Frame.shift (k : Nat) (f : Frame) : Frame :=
  { f with stack := f.stack.shift k, locals := Operands.shift k f.locals }

/-- The state with its objects above others, and with another output. -/
def State.above (older : Array Object) (o : Output) (s : State) : State where
  frames := s.frames.map (Frame.shift older.size)
  heap := s.heap.above older
  input := s.input
  output := o

def Outcome.above (older : Array Object) (o : Output) : Outcome → Outcome
  | .running s => .running (s.above older o)
  | .faulted fault s => .faulted (fault.shift older.size) (s.above older o)

/-- The output after the texts of values have been written to it. -/
def Output.writeAll (o : Output) (vs : List Value) : Output :=
  vs.foldl (fun o v => (o.write v.text).2) o

namespace Mirrors

theorem cases {α : Type} {k : Nat} {Q : α → Prop} {move : α → α} {x y : Except Fault α} (h : Mirrors k Q move x y) :
    (∃ a, x = .ok a ∧ y = .ok (move a) ∧ Q a) ∨ ∃ fault, x = .error fault ∧ y = .error (fault.shift k) := by
  cases x with
  | error fault => exact Or.inr ⟨fault, rfl, h⟩
  | ok a => exact Or.inl ⟨a, rfl, h⟩

end Mirrors

@[simp] theorem Frame.shift_stack (k : Nat) (f : Frame) : (f.shift k).stack = f.stack.shift k := rfl

@[simp] theorem Frame.shift_locals (k : Nat) (f : Frame) : (f.shift k).locals = Operands.shift k f.locals := rfl

@[simp] theorem State.above_heap (older : Array Object) (o : Output) (s : State) :
    (s.above older o).heap = s.heap.above older := rfl

@[simp] theorem State.above_input (older : Array Object) (o : Output) (s : State) : (s.above older o).input = s.input := rfl

theorem shift_storeSlot (k : Nat) (v : Value) (slot : Nat) (locals : List Value) :
    Operands.shift k (storeSlot v slot locals) = storeSlot (v.shift k) slot (Operands.shift k locals) := by
  unfold Operands.shift
  fun_induction storeSlot v slot locals with
  | case1 => rfl
  | case2 x rest => rfl
  | case3 slot ih => simpa [storeSlot, Value.shift] using ih
  | case4 slot x rest ih => simpa [storeSlot] using ih

theorem shift_deliver (k : Nat) (v : Value) (callers : List Frame) :
    (deliver v callers).map (Frame.shift k) = deliver (v.shift k) (callers.map (Frame.shift k)) := by
  cases callers <;> rfl

namespace State
variable {c : Chunk} {s : State} {older : Array Object} {o : Output} {f : Frame} {callers : List Frame}

/-- The same instruction comes next. -/
theorem next?_above : (s.above older o).next? =
    s.next?.map fun (f, callers, i) => (f.shift older.size, callers.map (Frame.shift older.size), i) := by
  unfold next? above
  cases s.frames with
  | nil => rfl
  | cons f callers =>
    show (f.function.code[f.pc]?).map _ = ((f.function.code[f.pc]?).map _).map _
    rw [Option.map_map]
    rfl

/-- An operation without a reference of its own acts on moved numbers as it does on the others. -/
theorem op_above (hfew : older.size + s.heap.objectCount ≤ 2 ^ 64) (hf : f.stack.Valid s.heap) {op : Operation}
    (hop : op.objectFree = true) :
    (s.above older o).exec c (f.shift older.size) (callers.map (Frame.shift older.size)) (.op op) =
      (s.exec c f callers (.op op)).above older o := by
  rcases (Operation.apply_mirrors hfew hf hop).cases with ⟨⟨stack, change⟩, hx, hy, hworks⟩ | ⟨fault, hx, hy⟩
  · simp only [exec, above_heap, Frame.shift_stack, hx, hy]
    cases change with
    | none => rfl
    | some change =>
      have hheap := Heap.apply_above hfew (hworks change rfl)
      simp [shiftResult, State.change, withFrames, Outcome.above, above, hheap, Frame.shift]
  · simp only [exec, above_heap, Frame.shift_stack, hx, hy]
    rfl

/-- A call takes its arguments along with their numbers moved. -/
theorem call_above (name : String) :
    (s.above older o).call c (f.shift older.size) (callers.map (Frame.shift older.size)) name =
      (s.call c f callers name).above older o := by
  have hlength : (f.shift older.size).stack.length = f.stack.length := List.length_map _
  unfold call
  cases c.get? name with
  | none => rfl
  | some g =>
    simp only [hlength]
    split
    · rfl
    · simp [Outcome.above, above, withFrames, Frame.shift, Operands.shift, List.map_take, List.map_drop]

theorem leave_above :
    (s.above older o).leave (f.shift older.size) (callers.map (Frame.shift older.size)) =
      (s.leave f callers).above older o := by
  have htop : (f.shift older.size).stack.head?.getD .null = (f.stack.head?.getD .null).shift older.size := by
    rw [Frame.shift_stack]
    cases f.stack <;> rfl
  rw [leave_eq, leave_eq, htop, ← shift_deliver]
  rfl

/-- Every instruction but a write does the same above other objects, and nothing to the output. -/
theorem exec_above (hfew : older.size + s.heap.objectCount ≤ 2 ^ 64) (hf : f.stack.Valid s.heap) {i : Instr}
    (hi : i.objectFree = true) (hwrite : i ≠ .write) :
    (s.above older o).exec c (f.shift older.size) (callers.map (Frame.shift older.size)) i =
      (s.exec c f callers i).above older o := by
  cases i with
  | op op => exact op_above hfew hf hi
  | load slot =>
    simp only [exec, Frame.shift_locals, Operands.shift, List.getElem?_map]
    cases f.locals[slot]? <;> rfl
  | store slot =>
    rcases (Mirrors.pop (k := older.size) hf).cases with ⟨⟨v, stack⟩, hx, hy, -⟩ | ⟨fault, hx, hy⟩
    · simp only [exec, Frame.shift_stack, hx, hy]
      simp [Outcome.above, above, withFrames, Frame.shift, shift_storeSlot]
    · simp only [exec, Frame.shift_stack, hx, hy]
      rfl
  | jump target => rfl
  | jumpUnless target =>
    rcases (Mirrors.popBool (k := older.size) hf).cases with ⟨⟨b, stack⟩, hx, hy, -⟩ | ⟨fault, hx, hy⟩
    · simp only [exec, Frame.shift_stack, hx, hy]
      rfl
    · simp only [exec, Frame.shift_stack, hx, hy]
      rfl
  | call name => exact call_above name
  | ret => exact leave_above
  | write => exact absurd rfl hwrite
  | read =>
    simp only [exec, above_input]
    split <;> rfl

end State

/-! ### Steps -/

theorem Output.writeAll_append (o : Output) (vs : List Value) (v : Value) :
    o.writeAll (vs ++ [v]) = ((o.writeAll vs).write v.text).2 := by
  simp [writeAll]

/-- The second state is the first one above other objects, and both have written the same values to an output. -/
def State.Alike (older : Array Object) (o : Output) (s t : State) : Prop :=
  ∃ vs, s.output = o.writeAll vs ∧ t = s.above older (o.writeAll (vs.map (Value.shift older.size)))

def Outcome.Alike (older : Array Object) (o : Output) (x y : Outcome) : Prop :=
  ∃ vs, x.state.output = o.writeAll vs ∧ y = x.above older (o.writeAll (vs.map (Value.shift older.size)))

/-- If a value is written next, both outputs have room for its text or neither has. -/
def State.Agree (k : Nat) (s t : State) : Prop :=
  ∀ f callers v rest, s.next? = some (f, callers, .write) → f.stack = v :: rest →
    (s.output.write v.text).1 = (t.output.write (v.shift k).text).1

/-- From here on the runs may differ: numbers have gone around; or of the outputs, which are limited, one has room for the
text that is written next and the other has not; or the runs have ended and flushing, which depends on what was written, comes
out differently. -/
inductive State.Parts (older : Array Object) (o : Output) (s t : State) : Prop where
  | numbers (many : 2 ^ 64 < older.size + s.heap.objectCount)
  | outputs (limited : o.room ≠ none) (differ : ¬s.Agree older.size t)
  | flushes (kept : ∃ bytes bytes', o.handOn bytes ≠ o.handOn bytes') (ended : s.next? = none)
    (differ : s.output.flush ≠ t.output.flush)

def Failure.shift (k : Nat) (failure : Failure) : Failure :=
  { failure with fault := failure.fault.shift k }

namespace State
variable {c : Chunk} {s t : State} {older : Array Object} {o : Output} {f : Frame} {callers : List Frame} {i : Instr}

theorem Alike.next? (h : s.Alike older o t) : t.next? =
    s.next?.map fun (f, callers, i) => (f.shift older.size, callers.map (Frame.shift older.size), i) := by
  obtain ⟨vs, -, rfl⟩ := h
  exact next?_above

/-- The texts that are written may differ, but both are written or refused as the outputs agree. -/
theorem Alike.write (h : s.Alike older o t) (hnext : s.next? = some (f, callers, .write)) (hagree : s.Agree older.size t) :
    (s.step c f callers .write).Alike older o
      (t.step c (f.shift older.size) (callers.map (Frame.shift older.size)) .write) := by
  obtain ⟨vs, hs, rfl⟩ := h
  cases hstack : f.stack with
  | nil =>
    have hstack' : (f.shift older.size).stack = [] := by simp [Frame.shift, hstack, Operands.shift]
    simp only [step, exec, hstack, hstack']
    exact ⟨vs, hs, rfl⟩
  | cons v rest =>
    have hstack' : (f.shift older.size).stack = v.shift older.size :: Operands.shift older.size rest := by
      simp [Frame.shift, hstack, Operands.shift]
    have hresult := hagree f callers v rest hnext hstack
    have hout : (s.output.write v.text).2 = o.writeAll (vs ++ [v]) := by rw [Output.writeAll_append, hs]
    have hout' : ((s.above older (o.writeAll (vs.map (Value.shift older.size)))).output.write (v.shift older.size).text).2 =
        o.writeAll ((vs ++ [v]).map (Value.shift older.size)) := by
      rw [List.map_append, List.map_singleton, Output.writeAll_append]
      rfl
    refine ⟨vs ++ [v], ?_⟩
    rw [step_write hstack, step_write hstack', ← hresult, hout, hout']
    cases (s.output.write v.text).1 with
    | error reason => exact ⟨rfl, rfl⟩
    | ok _ => exact ⟨rfl, rfl⟩

/-- As long as there are numbers and both outputs agree, the next instruction leads to the same. -/
theorem Alike.step (h : s.Alike older o t) (hs : s.Closed) (hfew : older.size + s.heap.objectCount ≤ 2 ^ 64)
    (hagree : s.Agree older.size t) (hnext : s.next? = some (f, callers, i)) (hi : i.objectFree = true) :
    (s.step c f callers i).Alike older o
      (t.step c (f.shift older.size) (callers.map (Frame.shift older.size)) i) := by
  by_cases hwrite : i = .write
  · subst hwrite
    exact h.write hnext hagree
  · obtain ⟨vs, hout, rfl⟩ := h
    have hframes := (next?_eq_some_iff.mp hnext).1
    have hf : f.stack.Valid s.heap := (hs.frames f (hframes ▸ List.mem_cons_self)).1
    refine ⟨vs, ((exec_shared c s _ callers i).output hwrite).trans hout, ?_⟩
    exact exec_above (f := { f with pc := f.pc + 1 }) hfew hf hi hwrite

end State

theorem Output.writeAll_room {o : Output} (hroom : o.room = none) (vs : List Value) : (o.writeAll vs).room = none := by
  induction vs using List.reverseRecOn with
  | nil => exact hroom
  | append_singleton vs v ih =>
    rw [writeAll_append, write, writeBytes, ih]

theorem Output.write_of_room {o : Output} (hroom : o.room = none) (text : String) : (o.write text).1 = .ok () := by
  rw [write, writeBytes, hroom]

/-- However much has been written, flushing hands on just that. -/
theorem Output.flush_writeAll (o : Output) (vs : List Value) :
    (o.writeAll vs).flush = flush { o with written := (o.writeAll vs).written } := by
  have hsame : (o.writeAll vs).flushes = o.flushes ∧ (o.writeAll vs).handOn = o.handOn := by
    induction vs using List.reverseRecOn with
    | nil => exact ⟨rfl, rfl⟩
    | append_singleton vs v ih =>
      rw [writeAll_append, ← ih.1, ← ih.2, write, writeBytes]
      split
      · exact ⟨rfl, rfl⟩
      · split <;> exact ⟨rfl, rfl⟩
  unfold flush
  rw [hsame.1, hsame.2]

/-! ### Runs -/

namespace State
variable {c : Chunk} {m : Machine} {s s' t : State} {older : Array Object} {o : Output} {n : Nat}

/-- Outputs without a limit agree on every text. -/
theorem Alike.agree (h : s.Alike older o t) (hroom : o.room = none) : s.Agree older.size t := by
  obtain ⟨vs, hs, rfl⟩ := h
  intro f callers v rest _ _
  have hleft : s.output.room = none := hs ▸ Output.writeAll_room hroom vs
  rw [Output.write_of_room hleft]
  exact (Output.write_of_room (Output.writeAll_room hroom _) _).symm

theorem few_of_not_parts (hparts : ¬s.Parts older o t) : older.size + s.heap.objectCount ≤ 2 ^ 64 :=
  Nat.le_of_not_lt fun hmany => hparts (.numbers hmany)

section
variable (h : s.Alike older o t) (hparts : ¬s.Parts older o t)
include h hparts

theorem Alike.agree_of_not_parts : s.Agree older.size t := by
  by_contra hdiffer
  refine hparts (.outputs (fun hroom => ?_) hdiffer)
  exact hdiffer (h.agree hroom)

/-- Runs that end without having parted are flushed alike. -/
theorem Alike.flush_of_not_parts (hend : s.next? = none) : t.output.flush = s.output.flush := by
  by_contra hdiffer
  refine hparts (.flushes ?_ hend (Ne.symm hdiffer))
  obtain ⟨vs, hs, rfl⟩ := h
  refine ⟨(o.writeAll vs).written, (o.writeAll (vs.map (Value.shift older.size))).written, fun hsame => hdiffer ?_⟩
  show (o.writeAll (vs.map (Value.shift older.size))).flush = s.output.flush
  rw [hs, Output.flush_writeAll, Output.flush_writeAll, Output.flush, Output.flush, hsame]

variable (hm : m.heap.Closed) (hfree : c.ObjectFree) (hvisits : m.Visits c s)
include hm hfree hvisits

/-- As long as nothing tells the two runs apart, each instruction does the same in both. -/
theorem Alike.step_of_not_parts {f : Frame} {callers : List Frame} {i : Instr} (hnext : s.next? = some (f, callers, i)) :
    t.next? = some (f.shift older.size, callers.map (Frame.shift older.size), i) ∧
      (s.step c f callers i).Alike older o
        (t.step c (f.shift older.size) (callers.map (Frame.shift older.size)) i) := by
  obtain ⟨-, hi⟩ := hvisits.objectFree hfree hnext
  refine ⟨by rw [h.next?, hnext]; rfl, ?_⟩
  exact h.step (hvisits.closed hfree hm) (few_of_not_parts hparts) (h.agree_of_not_parts hparts) hnext hi

theorem Alike.next (hnext : s.Next c s') : ∃ t', t.Next c t' ∧ s'.Alike older o t' := by
  obtain ⟨f, callers, i, hnext, hstep⟩ := hnext
  obtain ⟨ht, vs, hout, hstep'⟩ := h.step_of_not_parts hparts hm hfree hvisits hnext
  rw [hstep] at hout hstep'
  exact ⟨_, ⟨_, _, i, ht, hstep'⟩, vs, hout, rfl⟩

/-- An instruction that fails in one run fails in the other, with the numbers in the fault moved. -/
theorem Alike.fails {failure : Failure} (hfails : s.Fails c failure s') :
    ∃ t', t.Fails c (failure.shift older.size) t' ∧ s'.Alike older o t' := by
  obtain ⟨f, callers, i, hnext, hstep, hsite⟩ := hfails
  obtain ⟨ht, vs, hout, hstep'⟩ := h.step_of_not_parts hparts hm hfree hvisits hnext
  rw [hstep] at hout hstep'
  exact ⟨_, ⟨_, _, i, ht, hstep', hsite⟩, vs, hout, rfl⟩

end

/-- The runs from two states do not part within a number of instructions. -/
def Together (older : Array Object) (o : Output) (c : Chunk) (bound : Nat) (s t : State) : Prop :=
  ∀ n < bound, ∀ s' t', Steps c n s s' → Steps c n t t' → s'.Alike older o t' → ¬s'.Parts older o t'

section
variable {bound : Nat} (hm : m.heap.Closed) (hfree : c.ObjectFree)

theorem Together.next {t' : State} (h : s.Together older o c (bound + 1) t) (hs : s.Next c s') (ht : t.Next c t') :
    s'.Together older o c bound t' :=
  fun n hn s'' t'' hs' ht' => h (n + 1) (Nat.succ_lt_succ hn) s'' t'' (.next hs hs') (.next ht ht')

theorem Together.not_parts (htogether : s.Together older o c (bound + 1) t) (h : s.Alike older o t) :
    ¬s.Parts older o t :=
  htogether 0 (Nat.succ_pos bound) s t (.refl s) (.refl t) h

include hm hfree

/-- Two runs that are never told apart go on alike for any number of instructions. -/
theorem Alike.steps (hsteps : Steps c n s s') (hvisits : m.Visits c s) (h : s.Alike older o t)
    (htogether : s.Together older o c n t) : ∃ t', Steps c n t t' ∧ s'.Alike older o t' := by
  induction hsteps generalizing t with
  | refl s => exact ⟨t, .refl t, h⟩
  | @next n s s₁ s' hnext rest ih =>
    obtain ⟨t₁, ht₁, h₁⟩ := h.next (htogether.not_parts h) hm hfree hvisits hnext
    obtain ⟨t', ht', h'⟩ := ih (hvisits.next hnext) h₁ (htogether.next hnext ht₁)
    exact ⟨t', .next ht₁ ht', h'⟩

/-- The runs come to the same end, at the same instruction, or go on beyond the bound. -/
theorem Alike.run? (settings : Settings) (hvisits : m.Visits c s) (h : s.Alike older o t)
    (htogether : s.Together older o c bound t) (d d' : Diagnostics) :
    Option.Rel (fun e e' => e'.result = e.result.mapError (Failure.shift older.size) ∧ e.state.Alike older o e'.state ∧
        (e.result = .ok () → e'.state.output.flush = e.state.output.flush))
      (State.run? c settings bound s d) (State.run? c settings bound t d') := by
  induction bound generalizing s t d d' with
  | zero => exact .none
  | succ bound ih =>
    -- The two runs have not parted yet, so a step of one is a step of the other.
    have hparts := htogether.not_parts h
    have hone : 0 + 1 ≤ bound + 1 := by omega
    cases hnext : s.next? with
    | none =>
      have ht : t.next? = none := by rw [h.next?, hnext]; rfl
      obtain ⟨e, he⟩ := run?_end settings (.refl s) hnext d
      obtain ⟨e', he'⟩ := run?_end settings (.refl t) ht d'
      rw [run?_mono settings he hone, run?_mono settings he' hone]
      exact .some ⟨rfl, h, fun _ => h.flush_of_not_parts hparts hnext⟩
    | some next =>
      obtain ⟨f, callers, i⟩ := next
      cases hstep : s.step c f callers i with
      | running s' =>
        have hs : s.Next c s' := ⟨f, callers, i, hnext, hstep⟩
        obtain ⟨t', ht, h'⟩ := h.next hparts hm hfree hvisits hs
        obtain ⟨d₁, he⟩ := run?_next settings hs bound d
        obtain ⟨d₁', he'⟩ := run?_next settings ht bound d'
        rw [he, he']
        exact ih (hvisits.next hs) h' (htogether.next hs ht) d₁ d₁'
      | faulted fault s' =>
        have hs : s.Fails c ⟨fault, some (f.site i)⟩ s' := ⟨f, callers, i, hnext, hstep, rfl⟩
        obtain ⟨t', ht, h'⟩ := h.fails hparts hm hfree hvisits hs
        obtain ⟨d₁, he⟩ := run?_fails settings (.refl s) hs d
        obtain ⟨d₁', he'⟩ := run?_fails settings (.refl t) ht d'
        rw [run?_mono settings he hone, run?_mono settings he' hone]
        exact .some ⟨rfl, h', fun hok => by cases hok⟩

end
end State

namespace Machine

/-- The machine without its objects. -/
def cleared (m : Machine) : Machine :=
  { m with heap := { m.heap with objects := #[] } }

/-- Two runs on a machine, the first of them without its objects, have ended alike. -/
structure EndsAlike (m : Machine) (r r' : Except Failure Unit × Machine) : Prop where
  normally : r.1 = .ok () ↔ r'.1 = .ok ()
  failure : ∀ e, r.1 = .error e → ∃ e', r'.1 = .error e' ∧ e'.fault = e.fault.shift m.heap.objectCount ∧
    e'.fault.kind = e.fault.kind ∧ e'.site = e.site
  input : r'.2.input = r.2.input
  output : ∃ vs, r.2.output = m.output.writeAll vs ∧
    r'.2.output = m.output.writeAll (vs.map (Value.shift m.heap.objectCount))
  objects : r'.2.heap.objects = m.heap.objects ++ r.2.heap.objects.map (Object.shift m.heap.objectCount)

variable {m : Machine} {c : Chunk} {r r' : Except Failure Unit × Machine}

theorem EndsAlike.of_result (hresult : r'.1 = r.1.mapError (Failure.shift m.heap.objectCount))
    (hinput : r'.2.input = r.2.input)
    (houtput : ∃ vs, r.2.output = m.output.writeAll vs ∧
      r'.2.output = m.output.writeAll (vs.map (Value.shift m.heap.objectCount)))
    (hobjects : r'.2.heap.objects = m.heap.objects ++ r.2.heap.objects.map (Object.shift m.heap.objectCount)) :
    m.EndsAlike r r' where
  normally := by rw [hresult]; cases r.1 <;> simp [Except.mapError]
  failure e he := ⟨e.shift m.heap.objectCount, by rw [hresult, he]; rfl, rfl, Fault.kind_shift _ _, rfl⟩
  input := hinput
  output := houtput
  objects := hobjects

/-- Runs that end alike and whose outputs are flushed alike have the same result. -/
theorem finish_alike {e e' : Ending} (hresult : e'.result = e.result.mapError (Failure.shift m.heap.objectCount))
    (hstate : e.state.Alike m.heap.objects m.output e'.state)
    (hflush : e.result = .ok () → e'.state.output.flush = e.state.output.flush) :
    m.EndsAlike (m.cleared.finish e) (m.finish e') := by
  obtain ⟨vs, hout, hstate⟩ := hstate
  obtain ⟨hinput, houtput⟩ := m.cleared.finish_state e
  obtain ⟨hinput', houtput'⟩ := m.finish_state e'
  refine .of_result ?_ ?_ ⟨vs, houtput.trans hout, ?_⟩ ?_
  · unfold finish
    rw [hresult]
    cases hended : e.result with
    | error failure => rfl
    | ok _ =>
      rw [hflush hended]
      cases e.state.output.flush <;> rfl
  · rw [hinput, hinput', hstate]
    rfl
  · rw [houtput', hstate]
    rfl
  · rw [finish_heap, finish_heap, hstate]
    rfl

/-- The two runs start alike. -/
theorem start_alike (m : Machine) (main : Function) :
    (m.cleared.start main).Alike m.heap.objects m.output (m.start main) := by
  refine ⟨[], rfl, ?_⟩
  simp [start, cleared, State.above, Heap.above, Output.writeAll, Frame.shift, Operands.shift]

end Machine

/-- The two runs come to a point, after fewer instructions than the bound, from which on they may differ. -/
def Machine.PartsWithin (m : Machine) (c : Chunk) (bound : Nat) : Prop :=
  ∃ n < bound, ∃ s t, m.cleared.After c n s ∧ m.After c n t ∧ s.Alike m.heap.objects m.output t ∧
    s.Parts m.heap.objects m.output t

section
variable {c : Chunk} {n : Nat} {s t : State}

/-- Runs never part as long as the outputs are not limited, flushing does not depend on what was written, and there are
numbers for an object an instruction. -/
theorem Machine.not_partsWithin {m : Machine} (hroom : m.output.room = none)
    (hflush : ∀ bytes bytes', m.output.handOn bytes = m.output.handOn bytes') {bound : Nat}
    (hfew : m.heap.objectCount + bound ≤ 2 ^ 64) : ¬m.PartsWithin c bound := by
  rintro ⟨n, hn, s, t, hafter, -, -, hmany | ⟨hlimited, -⟩ | ⟨⟨bytes, bytes', hkept⟩, -⟩⟩
  · obtain ⟨main, -, hs⟩ := after_iff.mp hafter
    have hcount := hs.objectCount_le
    have hstart : (m.cleared.start main).heap.objectCount = 0 := rfl
    have hsize : m.heap.objects.size = m.heap.objectCount := rfl
    omega
  · exact hlimited hroom
  · exact hkept (hflush bytes bytes')

end

namespace Safety

/-- A machine runs a chunk without references of its own as it would without its objects, but with the numbers of new objects
moved up: after every number of instructions the two runs are in the same state, they end at the same instruction and in the
same way, and the objects that the machine had are as they were. Only from a point on at which one of the outputs has no
room for what is written next, or is not flushed at the end, and the other one has or is, or at which the numbers have gone
around, they may differ. -/
theorem used_machine_runs_as_cleared (m : Machine) {c : Chunk} (hc : c.ObjectFree) (bound : Nat) :
    m.PartsWithin c bound ∨
      (∀ n ≤ bound, ∀ s, m.cleared.After c n s → ∃ t, m.After c n t ∧ s.Alike m.heap.objects m.output t) ∧
        Option.Rel m.EndsAlike (m.cleared.run? c bound) (m.run? c bound) := by
  refine or_iff_not_imp_left.mpr fun hparts => ?_
  have hclosed : m.cleared.heap.Closed := fun o ho => absurd ho (Array.not_mem_empty o)
  -- What is assumed about the runs of the machines is what the steps of their states need.
  have htogether : ∀ main, Machine.entryPoint? c = some main →
      (m.cleared.start main).Together m.heap.objects m.output c bound (m.start main) := by
    intro main hmain n hn s t hs ht halike hpart
    exact hparts ⟨n, hn, s, t, Machine.after_iff.mpr ⟨main, hmain, hs⟩, Machine.after_iff.mpr ⟨main, hmain, ht⟩,
      halike, hpart⟩
  constructor
  · intro n hn s hafter
    obtain ⟨main, hmain, hs⟩ := Machine.after_iff.mp hafter
    obtain ⟨t, ht, halike⟩ := (m.start_alike main).steps hclosed hc hs (m.cleared.visits_start hmain) fun n' hn' =>
      htogether main hmain n' (by omega)
    exact ⟨t, Machine.after_iff.mpr ⟨main, hmain, ht⟩, halike⟩
  · unfold Machine.run?
    cases hmain : Machine.entryPoint? c with
    | none =>
      refine .some (.of_result rfl rfl ⟨[], rfl, rfl⟩ ?_)
      simp [Machine.cleared]
    | some main =>
      have hruns := (m.start_alike main).run? hclosed hc m.settings (m.cleared.visits_start hmain) (htogether main hmain)
        m.diagnostics m.diagnostics
      show Option.Rel m.EndsAlike ((State.run? c m.settings bound _ m.diagnostics).map m.cleared.finish)
        ((State.run? c m.settings bound _ m.diagnostics).map m.finish)
      generalize State.run? c m.settings bound (m.cleared.start main) m.diagnostics = e at hruns ⊢
      generalize State.run? c m.settings bound (m.start main) m.diagnostics = e' at hruns ⊢
      cases hruns with
      | none => exact .none
      | some halike => exact .some (Machine.finish_alike halike.1 halike.2.1 halike.2.2)

/-- A program that writes the number of a new struct and then asks the struct for a field. -/
def askingChunk : Chunk where
  functions := [⟨"main", 0, #[.op .newStruct, .op .dup, .write, .op (.getField "x"), .op (.push .null), .ret]⟩]

/-- A machine with two objects. -/
def stockedMachine : Machine where
  heap := { objects := #[.struct {}, .array #[.object 2023] none] }

/-- The struct is the first object without the other ones, and the third with them. -/
theorem asking_runs_as_cleared :
    askingChunk.ObjectFree ∧ ∃ r r', stockedMachine.cleared.run? askingChunk 9 = some r ∧
      stockedMachine.run? askingChunk 9 = some r' ∧ stockedMachine.EndsAlike r r' ∧
      r.1 = .error ⟨.noField 2023 "x", some ⟨"main", 3, "GETF(x)"⟩⟩ ∧
      r'.1 = .error ⟨.noField 2025 "x", some ⟨"main", 3, "GETF(x)"⟩⟩ := by
  have hfree : askingChunk.ObjectFree := by
    simp [Chunk.ObjectFree, askingChunk, Instr.objectFree, Operation.objectFree]
  have hr : ∃ r, stockedMachine.cleared.run? askingChunk 9 = some r ∧
      r.1 = .error ⟨.noField 2023 "x", some ⟨"main", 3, "GETF(x)"⟩⟩ := ⟨_, rfl, rfl⟩
  have hr' : ∃ r', stockedMachine.run? askingChunk 9 = some r' ∧
      r'.1 = .error ⟨.noField 2025 "x", some ⟨"main", 3, "GETF(x)"⟩⟩ := ⟨_, rfl, rfl⟩
  obtain ⟨r, hrun, hresult⟩ := hr
  obtain ⟨r', hrun', hresult'⟩ := hr'
  have hparts : ¬stockedMachine.PartsWithin askingChunk 9 := Machine.not_partsWithin rfl (fun _ _ => rfl) (by decide)
  obtain ⟨-, hends⟩ := (used_machine_runs_as_cleared stockedMachine hfree 9).resolve_left hparts
  rw [hrun, hrun'] at hends
  cases hends with
  | some halike => exact ⟨hfree, r, r', hrun, hrun', halike, hresult, hresult'⟩

/-- A function that writes the number of a new struct. -/
def numbering : Function :=
  ⟨"main", 0, #[.op .newStruct, .write, .op (.push .null), .ret]⟩

def numberingChunk : Chunk where
  functions := [numbering]

/-- The program ends normally if there is room for the next number. -/
theorem numbering_run (h : Heap) (room : Nat) :
    (Machine.run? { heap := h, output := { room := some room } } numberingChunk 5).map Prod.fst =
      some (if (decimal h.nextId).utf8ByteSize ≤ room then .ok ()
        else .error ⟨.writeFailed Output.full, some ⟨"main", 1, "WRITE()"⟩⟩) := by
  let m : Machine := { heap := h, output := { room := some room } }
  let s : State := { m.start numbering with
    frames := [{ function := numbering, pc := 1, stack := [.object h.nextId] }], heap := h.apply Heap.newStruct }
  have hallocated : (m.start numbering).Next numberingChunk s := ⟨_, _, _, rfl, rfl⟩
  show ((State.run? numberingChunk {} 5 (m.start numbering) {}).map m.finish).map Prod.fst = _
  -- The text written is the number of the new object, which may be too long for the room.
  by_cases hfits : (decimal h.nextId).utf8ByteSize ≤ room
  · let t : State := { s with
      frames := [{ function := numbering, pc := 2 }]
      output := ⟨(decimal h.nextId).toUTF8.data, some (room - (decimal h.nextId).utf8ByteSize), true, fun _ => .ok ()⟩ }
    have hwritten : s.Next numberingChunk t := by
      refine ⟨_, _, .write, rfl, (State.step_write rfl).trans ?_⟩
      simp [s, t, m, Machine.start, Output.write, Output.writeBytes, Value.text, hfits]
    have hreturned : State.Steps numberingChunk 2 t (t.withFrames []) :=
      .next ⟨_, _, _, rfl, rfl⟩ (.single ⟨_, _, _, rfl, rfl⟩)
    obtain ⟨d, hrun⟩ := State.run?_end {} (.next hallocated (.next hwritten hreturned)) rfl {}
    rw [hrun, if_pos hfits]
    rfl
  · let t : State := { s with output := ⟨(decimal h.nextId).toUTF8.data.extract 0 room, some 0, true, fun _ => .ok ()⟩ }
    have hfails : s.Fails numberingChunk ⟨.writeFailed Output.full, some ⟨"main", 1, "WRITE()"⟩⟩ t := by
      refine ⟨_, _, .write, rfl, (State.step_write rfl).trans ?_, rfl⟩
      simp [s, t, m, Machine.start, Output.write, Output.writeBytes, Value.text, hfits]
    obtain ⟨d, hrun⟩ := State.run?_fails {} (.single hallocated) hfails {}
    rw [State.run?_mono {} hrun (by omega), if_neg hfits]
    rfl

/-- A machine with a number of structs and with room for four bytes in its output. -/
def crowdedMachine (n : Nat) : Machine where
  heap := Heap.after {} (List.replicate n ⟨beyond 0, .newStruct⟩)
  output := { room := some 4 }

theorem objectCount_after_newStruct (h : Heap) (n : Nat) :
    (h.after (List.replicate n ⟨beyond 0, .newStruct⟩)).objectCount = h.objectCount + n := by
  induction n generalizing h with
  | zero => rfl
  | succ n ih =>
    rw [List.replicate_succ]
    refine (ih _).trans ?_
    simp [Heap.serve, Heap.perform, Heap.answer, Heap.apply, Heap.newStruct, Heap.objectCount, pure, Except.pure]
    omega

theorem nextId_crowdedMachine (n : Nat) : (crowdedMachine n).heap.nextId = Int64.ofNat (Heap.firstId + (0 + n)) :=
  congrArg (fun count => Int64.ofNat (Heap.firstId + count)) (objectCount_after_newStruct {} n)

theorem crowded_cleared_run (n : Nat) :
    ((crowdedMachine n).cleared.run? numberingChunk 5).map Prod.fst = some (.ok ()) := by
  have hid : (crowdedMachine n).cleared.heap.nextId = 2023 := rfl
  have hfits : (decimal 2023).utf8ByteSize ≤ 4 := by decide +kernel
  refine (numbering_run (crowdedMachine n).cleared.heap 4).trans ?_
  rw [hid, if_pos hfits]

theorem crowded_run (n : Nat) :
    ((crowdedMachine n).run? numberingChunk 5).map Prod.fst =
      some (if (decimal (Int64.ofNat (Heap.firstId + (0 + n)))).utf8ByteSize ≤ 4 then .ok ()
        else .error ⟨.writeFailed Output.full, some ⟨"main", 1, "WRITE()"⟩⟩) := by
  rw [← nextId_crowdedMachine]
  exact numbering_run (crowdedMachine n).heap 4

/-- The number is written without the other objects, and does not fit with them. -/
theorem longer_number_does_not_fit :
    numberingChunk.ObjectFree ∧ ((crowdedMachine 7977).cleared.run? numberingChunk 5).map Prod.fst = some (.ok ()) ∧
      ((crowdedMachine 7977).run? numberingChunk 5).map Prod.fst =
        some (.error ⟨.writeFailed Output.full, some ⟨"main", 1, "WRITE()"⟩⟩) := by
  have hfree : numberingChunk.ObjectFree := by
    simp [Chunk.ObjectFree, numberingChunk, numbering, Instr.objectFree, Operation.objectFree]
  have hlong : ¬(decimal (Int64.ofNat (Heap.firstId + (0 + 7977)))).utf8ByteSize ≤ 4 := by decide +kernel
  refine ⟨hfree, crowded_cleared_run 7977, ?_⟩
  rw [crowded_run, if_neg hlong]

end Safety
end Bytecode
