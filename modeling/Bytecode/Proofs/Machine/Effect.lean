import Bytecode.Proofs.Machine.Course
import Bytecode.Proofs.Machine.Operands

/-! What a step does to the frames. An instruction other than a call or a return changes the innermost frame alone and
    goes on at one of its successors; a call puts a frame on top; a return takes the innermost frame away and hands a
    value to the next one (`Moved`). -/

namespace Bytecode
namespace Instr

/-- The indices at which a frame can go on behind an instruction at an index. -/
def successors (pc : Nat) : Instr → List Nat
  | .jump target => [target]
  | .jumpUnless target => [pc + 1, target]
  | .ret => []
  | _ => [pc + 1]

/-- How many operands an instruction takes; a call takes the arguments of the function it calls. -/
def takes (c : Chunk) : Instr → Nat
  | .op o => o.takes
  | .store _ | .jumpUnless _ | .ret | .write => 1
  | .load _ | .jump _ | .read => 0
  | .call name => ((c.get? name).map Function.arity).getD 0

/-- How many operands an instruction leaves in their place, once a call has returned. -/
def gives : Instr → Nat
  | .op o => o.gives
  | .load _ | .read | .call _ => 1
  | .store _ | .jump _ | .jumpUnless _ | .ret | .write => 0

/-- If the instruction is a call, it is one of a function of the chunk. -/
def Resolves (c : Chunk) (i : Instr) : Prop :=
  ∀ name, i = .call name → (c.get? name).isSome = true

theorem takes_of_not_resolves {c : Chunk} {i : Instr} (h : ¬i.Resolves c) : i.takes c = 0 := by
  simp only [Resolves, not_forall] at h
  obtain ⟨name, rfl, hnone⟩ := h
  have hget : c.get? name = none := by simpa using hnone
  simp [takes, hget]

end Instr

/-- The frames after the innermost one has returned a value. -/
def deliver (v : Value) : List Frame → List Frame
  | [] => []
  | g :: rest => { g with stack := v :: g.stack } :: rest

theorem mem_deliver {v : Value} {callers : List Frame} {f : Frame} (h : f ∈ deliver v callers) :
    ∃ g ∈ callers, f.function = g.function ∧ f.pc = g.pc := by
  cases callers with
  | nil => cases h
  | cons g rest =>
    rcases List.mem_cons.mp h with rfl | h
    · exact ⟨g, List.mem_cons_self, rfl, rfl⟩
    · exact ⟨f, List.mem_cons_of_mem _ h, rfl, rfl⟩

theorem length_storeSlot (v : Value) (slot : Nat) (locals : List Value) :
    (storeSlot v slot locals).length = max locals.length (slot + 1) := by
  fun_induction storeSlot v slot locals with
  | case1 => rfl
  | case2 x rest => simp
  | case3 slot ih => simp [ih]
  | case4 slot x rest ih =>
    simp only [List.length_cons, ih]
    omega

/-- A slot that was set holds its new value, the slots before it that were never set hold null, and all others are as
they were. -/
theorem getElem?_storeSlot (v : Value) (slot : Nat) (locals : List Value) (i : Nat) :
    (storeSlot v slot locals)[i]? =
      if i = slot then some v else if i < slot then some (locals[i]?.getD .null) else locals[i]? := by
  fun_induction storeSlot v slot locals generalizing i with
  | case1 => cases i <;> simp
  | case2 x rest => cases i <;> simp
  | case3 slot ih =>
    cases i with
    | zero => simp
    | succ i => simp [ih]
  | case4 slot x rest ih =>
    cases i with
    | zero => simp
    | succ i => simp [ih]

namespace State

/-- The frames after a step of the innermost frame `f`, which called by `callers` executes an instruction. -/
inductive Moved (c : Chunk) (f : Frame) (callers : List Frame) : Instr → List Frame → Prop where
  | within {i : Instr} {g : Frame} (function : g.function = f.function) (pc : g.pc ∈ i.successors f.pc)
      (stack : i.takes c ≤ f.stack.length → ∃ new, new.length = i.gives ∧ g.stack = new ++ f.stack.drop (i.takes c))
      (kept : (∀ slot, i ≠ .store slot) → g.locals = f.locals)
      (stored : ∀ slot, i = .store slot → ∃ v, g.locals = storeSlot v slot f.locals) (resolves : i.Resolves c) :
      Moved c f callers i (g :: callers)
  | call {name : String} {g : Function} (get : c.get? name = some g) (enough : g.arity ≤ f.stack.length) :
      Moved c f callers (.call name)
        ({ function := g, stack := (f.stack.take g.arity).reverse } ::
          { f with pc := f.pc + 1, stack := f.stack.drop g.arity } :: callers)
  | ret : Moved c f callers .ret (deliver (f.stack.head?.getD .null) callers)

variable {c : Chunk} {s t : State} {f : Frame} {callers : List Frame} {i : Instr}

@[simp] theorem change_frames (s : State) (change : Option Change) : (s.change change).frames = s.frames := by
  cases change <;> rfl

theorem leave_eq (s : State) (f : Frame) (callers : List Frame) :
    s.leave f callers = .running (s.withFrames (deliver (f.stack.head?.getD .null) callers)) := by
  cases callers <;> rfl

theorem pop_eq_ok {stack rest : Operands} {v : Value} (h : stack.pop = .ok (v, rest)) : stack = v :: rest := by
  cases stack with
  | nil => cases h
  | cons w stack =>
    cases h
    rfl

theorem popBool_eq_ok {stack rest : Operands} {b : Bool} (h : stack.popBool = .ok (b, rest)) :
    stack = .bool b :: rest := by
  cases stack with
  | nil => cases h
  | cons w stack =>
    cases w <;> cases h
    rfl

/-- A call that does not fail takes the arguments of its function from the operands. -/
theorem step_call_running {name : String} (h : s.step c f callers (.call name) = .running t) :
    ∃ g, c.get? name = some g ∧ g.arity ≤ f.stack.length ∧
      t = s.withFrames ({ function := g, stack := (f.stack.take g.arity).reverse } ::
        { f with pc := f.pc + 1, stack := f.stack.drop g.arity } :: callers) := by
  simp only [step, exec, State.call] at h
  split at h
  · cases h
  · rename_i g hget
    split at h
    · cases h
    · rename_i hle
      cases h
      exact ⟨g, hget, Nat.le_of_not_lt hle, rfl⟩

/-- Every step that does not fail is one of these moves. -/
theorem step_running (h : s.step c f callers i = .running t) : Moved c f callers i t.frames := by
  -- A call is the only instruction that opens a frame.
  by_cases hcall : ∃ name, i = .call name
  · obtain ⟨name, rfl⟩ := hcall
    obtain ⟨g, hget, henough, rfl⟩ := step_call_running h
    exact .call hget henough
  unfold step exec at h
  cases i with
  | op o =>
    simp only at h
    split at h
    · rename_i stack change hr
      cases h
      rw [change_frames]
      exact .within rfl (by simp [Instr.successors]) (fun hle => Operation.apply_ok hle hr) (fun _ => rfl) nofun nofun
    · cases h
  | load slot =>
    simp only at h
    split at h
    · rename_i v hv
      cases h
      exact .within rfl (by simp [Instr.successors]) (fun _ => ⟨[v], rfl, rfl⟩) (fun _ => rfl) nofun nofun
    · cases h
  | store slot =>
    simp only at h
    split at h
    · rename_i v stack hpop
      cases h
      refine .within rfl (by simp [Instr.successors]) (fun _ => ⟨[], rfl, ?_⟩) (fun hne => absurd rfl (hne slot)) ?_
        nofun
      · simp [Instr.takes, pop_eq_ok hpop]
      · rintro _ ⟨⟩
        exact ⟨v, rfl⟩
    · cases h
  | jump target =>
    cases h
    exact .within rfl (by simp [Instr.successors]) (fun _ => ⟨[], rfl, rfl⟩) (fun _ => rfl) nofun nofun
  | jumpUnless target =>
    simp only at h
    split at h
    · rename_i b stack hpop
      cases h
      refine .within rfl ?_ (fun _ => ⟨[], rfl, ?_⟩) (fun _ => rfl) nofun nofun
      · cases b <;> simp [Instr.successors]
      · simp [Instr.takes, popBool_eq_ok hpop]
    · cases h
  | call name => exact absurd ⟨name, rfl⟩ hcall
  | ret =>
    rw [leave_eq] at h
    cases h
    exact .ret
  | write =>
    simp only at h
    split at h
    · rename_i v stack hpop
      split at h
      · cases h
        refine .within rfl (by simp [Instr.successors]) (fun _ => ⟨[], rfl, ?_⟩) (fun _ => rfl) nofun nofun
        simp [Instr.takes, pop_eq_ok hpop]
      · cases h
    · cases h
  | read =>
    simp only at h
    split at h
    · rename_i line input hread
      cases h
      exact .within rfl (by simp [Instr.successors]) (fun _ => ⟨[.str line], rfl, rfl⟩) (fun _ => rfl) nofun nofun
    · cases h

theorem Next.moved (h : s.Next c t) :
    ∃ f callers i, s.frames = f :: callers ∧ f.function.code[f.pc]? = some i ∧ Moved c f callers i t.frames := by
  obtain ⟨f, callers, i, hn, hs⟩ := h
  obtain ⟨hf, hi⟩ := next?_eq_some_iff.mp hn
  exact ⟨f, callers, i, hf, hi, step_running hs⟩

/-- Where the frames are after a step: one goes on in its function, a callee starts, and all others stay where they were. -/
theorem Moved.place {frames : List Frame} (h : Moved c f callers i frames) {f' : Frame} (hf' : f' ∈ frames) :
    f'.function = f.function ∧ f'.pc ∈ i.successors f.pc ∨ (∃ name, c.get? name = some f'.function) ∧ f'.pc = 0 ∨
      ∃ g ∈ callers, f'.function = g.function ∧ f'.pc = g.pc := by
  cases h with
  | within hfunction hpc =>
    rcases List.mem_cons.mp hf' with rfl | hf'
    · exact Or.inl ⟨hfunction, hpc⟩
    · exact Or.inr (Or.inr ⟨f', hf', rfl, rfl⟩)
  | call hget =>
    rcases List.mem_cons.mp hf' with rfl | hf'
    · exact Or.inr (Or.inl ⟨⟨_, hget⟩, rfl⟩)
    -- The caller goes on behind the call when the callee returns.
    · rcases List.mem_cons.mp hf' with rfl | hf'
      · exact Or.inl ⟨rfl, List.mem_singleton_self _⟩
      · exact Or.inr (Or.inr ⟨f', hf', rfl, rfl⟩)
  | ret => exact Or.inr (Or.inr (mem_deliver hf'))

/-- Every function that runs is one of the chunk. -/
theorem function_mem {m : Machine} (h : m.Visits c s) : ∀ f ∈ s.frames, f.function ∈ c.functions := by
  refine h.induction (P := fun s => ∀ f ∈ s.frames, f.function ∈ c.functions) (fun main hmain => ?_)
    fun s t _ hnext hs => ?_
  · intro f hf
    obtain rfl := List.mem_singleton.mp hf
    exact (Machine.entryPoint?_eq_some hmain).1
  · obtain ⟨f, callers, i, hframes, -, hmoved⟩ := hnext.moved
    rw [hframes] at hs
    intro f' hf'
    rcases hmoved.place hf' with ⟨hfunction, -⟩ | ⟨⟨name, hget⟩, -⟩ | ⟨g, hg, hfunction, -⟩
    · rw [hfunction]
      exact hs f List.mem_cons_self
    · exact Chunk.mem_of_get? hget
    · rw [hfunction]
      exact hs g (List.mem_cons_of_mem _ hg)

theorem top_mem {m : Machine} (h : m.Visits c s) (hframes : s.frames = f :: callers) : f.function ∈ c.functions := by
  refine function_mem h f ?_
  rw [hframes]
  exact List.mem_cons_self

/-! ### Faults about the frame -/

theorem pop_error {stack : Operands} {fault : Fault} (h : stack.pop = .error fault) :
    fault = .underflow ∧ stack.length < 1 := by
  cases stack with
  | nil =>
    cases h
    exact ⟨rfl, Nat.zero_lt_one⟩
  | cons v stack => cases h

/-- A fault about the frame means that there are too few operands, or that a slot is loaded that was never set. -/
theorem step_faulted {fault : Fault} (h : s.step c f callers i = .faulted fault t) (hframe : fault.ofFrame = true) :
    (f.stack.length < i.takes c ∧ ∀ slot, fault ≠ .unsetSlot slot) ∨
      ∃ slot, i = .load slot ∧ f.locals[slot]? = none ∧ fault = .unsetSlot slot := by
  unfold step exec at h
  cases i with
  | op o =>
    simp only at h
    split at h
    · cases h
    · rename_i fault' hr
      cases h
      -- An operation only lacks operands if there are fewer than it takes.
      obtain ⟨rfl, hlt⟩ := Operation.apply_sound s.heap o f.stack fault hr hframe
      exact Or.inl ⟨hlt, nofun⟩
  | load slot =>
    simp only at h
    split at h
    · cases h
    · rename_i hnone
      cases h
      exact Or.inr ⟨slot, rfl, hnone, rfl⟩
  | store slot =>
    simp only at h
    split at h
    · cases h
    · rename_i fault' hpop
      cases h
      obtain ⟨rfl, hlt⟩ := pop_error hpop
      exact Or.inl ⟨hlt, nofun⟩
  | jump target => cases h
  | jumpUnless target =>
    simp only at h
    split at h
    · cases h
    · rename_i fault' hpop
      cases h
      have hsound : Sound (f.stack.length < 1) f.stack.popBool := by
        cases f.stack with
        | nil => simp
        | cons v stack => simp
      obtain ⟨rfl, hlt⟩ := hsound fault hpop hframe
      exact Or.inl ⟨hlt, nofun⟩
  | call name =>
    simp only [State.call] at h
    split at h
    · cases h
      cases hframe
    · rename_i g hget
      split at h
      · rename_i hlt
        cases h
        refine Or.inl ⟨?_, nofun⟩
        simpa [Instr.takes, hget] using hlt
      · cases h
  | ret =>
    rw [leave_eq] at h
    cases h
  | write =>
    simp only at h
    split at h
    · split at h
      · cases h
      · cases h
        cases hframe
    · rename_i fault' hpop
      cases h
      obtain ⟨rfl, hlt⟩ := pop_error hpop
      exact Or.inl ⟨hlt, nofun⟩
  | read =>
    simp only at h
    split at h
    · cases h
    · cases h
      cases hframe

end State

/-! ### What lies below -/

/-- Puts operands below those of the frame that has a number of callers. -/
def putBelow (depth : Nat) (rest : Operands) : List Frame → List Frame
  | [] => []
  | f :: callers =>
    if callers.length = depth then { f with stack := f.stack ++ rest } :: callers
    else f :: putBelow depth rest callers

/-- Puts operands below those of the frame that has a number of callers, in the state that an instruction leads to. -/
def Outcome.putBelow (depth : Nat) (rest : Operands) : Outcome → Outcome
  | .running s => .running (s.withFrames (Bytecode.putBelow depth rest s.frames))
  | .faulted fault s => .faulted fault s

@[simp] theorem putBelow_cons (f : Frame) (callers : List Frame) (rest : Operands) :
    putBelow callers.length rest (f :: callers) = { f with stack := f.stack ++ rest } :: callers := by
  simp [putBelow]

@[simp] theorem putBelow_callee (g f : Frame) (callers : List Frame) (rest : Operands) :
    putBelow callers.length rest (g :: f :: callers) = g :: { f with stack := f.stack ++ rest } :: callers := by
  simp [putBelow]

/-- An instruction other than a return neither reads nor removes what lies below the operands it takes. -/
theorem State.step_putBelow {c : Chunk} {s : State} {f : Frame} {callers : List Frame} {i : Instr} (hi : i ≠ .ret)
    (h : i.takes c ≤ f.stack.length) (rest : Operands) :
    s.step c { f with stack := f.stack ++ rest } callers i = (s.step c f callers i).putBelow callers.length rest := by
  unfold step exec
  cases i with
  | op o =>
    simp only [Operation.apply_append h]
    cases o.apply s.heap f.stack with
    | error fault => rfl
    | ok r =>
      obtain ⟨stack, change⟩ := r
      cases change <;> simp [Outcome.putBelow, State.change, withFrames]
  | load slot =>
    simp only
    cases f.locals[slot]? with
    | none => rfl
    | some v => simp [Outcome.putBelow, withFrames]
  | store slot =>
    obtain ⟨v, stack, hstack⟩ := List.exists_cons_of_length_pos h
    simp [hstack, Outcome.putBelow, withFrames, pure, Except.pure]
  | jump target => simp [Outcome.putBelow, withFrames]
  | jumpUnless target =>
    obtain ⟨v, stack, hstack⟩ := List.exists_cons_of_length_pos h
    simp only [hstack, List.cons_append, Operands.popBool_cons]
    cases v.needBool with
    | error fault => rfl
    | ok b => simp [Outcome.putBelow, withFrames, bind, Except.bind, pure, Except.pure]
  | call name =>
    simp only [State.call]
    cases hget : c.get? name with
    | none => rfl
    | some g =>
      -- The arguments are on top, so the callee takes the same ones.
      have hle : g.arity ≤ f.stack.length := by simpa [Instr.takes, hget] using h
      have hle' : g.arity ≤ (f.stack ++ rest).length := Nat.le_trans hle (by simp)
      simp only [if_neg (Nat.not_lt.mpr hle), if_neg (Nat.not_lt.mpr hle'), List.take_append_of_le_length hle,
        List.drop_append_of_le_length hle, Outcome.putBelow, withFrames, putBelow_callee]
  | ret => exact absurd rfl hi
  | write =>
    obtain ⟨v, stack, hstack⟩ := List.exists_cons_of_length_pos h
    simp only [hstack, List.cons_append, Operands.pop_cons, pure, Except.pure]
    cases s.output.write v.text with
    | mk r output =>
      cases r <;> simp [Outcome.putBelow, withFrames]
  | read =>
    simp only
    cases s.input.readLine with
    | mk r input =>
      cases r <;> simp [Outcome.putBelow, withFrames]

end Bytecode
