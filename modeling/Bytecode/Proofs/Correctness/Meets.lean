import Bytecode.Proofs.Evaluation.Basic
import Bytecode.Proofs.Lowering.Placed
import Bytecode.Proofs.Machine.Effect

/-! When the machine does what an evaluation does. An evaluation that is done takes the machine to frames that agree with
    its value; one that fails takes it to an instruction that fails in the same way; one that uses its bound up means
    that the machine takes at least as many steps as the bound. Agreement is put together along the evaluation
    (`Meets.bind`), so that each form of a tree needs only its own last instructions. -/

namespace Bytecode

/-- A frame that has gone on by some instructions and has other operands. -/
def Frame.moved (f : Frame) (n : Nat) (stack : Operands) : Frame :=
  { f with pc := f.pc + n, stack := stack }

namespace Frame
variable (f : Frame) (m n : Nat) (stack stack' : Operands)

@[simp] theorem moved_function : (f.moved n stack).function = f.function := rfl

@[simp] theorem moved_pc : (f.moved n stack).pc = f.pc + n := rfl

@[simp] theorem moved_stack : (f.moved n stack).stack = stack := rfl

@[simp] theorem moved_locals : (f.moved n stack).locals = f.locals := rfl

@[simp] theorem moved_moved : (f.moved m stack).moved n stack' = f.moved (m + n) stack' := by
  simp [moved, Nat.add_assoc]

end Frame

namespace Correctness
open Evaluation Lowering

/-- The state of a machine with frames in a world. -/
def stateOf (w : World) (frames : List Frame) : State :=
  { frames := frames, heap := w.heap, input := w.input, output := w.output }

/-- The world of a state. -/
def worldOf (s : State) : World :=
  ⟨s.heap, s.input, s.output⟩

/-- Code stands at the next index of a frame. -/
def At (f : Frame) (code : List Instr) : Prop :=
  Placed f.function.code.toList f.pc code

namespace At
variable {f : Frame} {code code' : List Instr} {i : Instr}

theorem head (h : At f (i :: code)) : f.function.code[f.pc]? = some i := by
  simpa using Placed.head h

theorem left (h : At f (code ++ code')) : At f code :=
  Placed.left h

/-- Code is found behind the code in front of it, whatever that has left on the stack. -/
theorem right (h : At f (code ++ code')) (stack : Operands) : At (f.moved code.length stack) code' :=
  Placed.right h

theorem tail (h : At f (i :: code)) (stack : Operands) : At (f.moved 1 stack) code :=
  Placed.tail h

end At

/-- From a state the machine does what an evaluation does, and reaches frames that agree with the value. -/
def Meets {α : Type} (c : Chunk) (n : Nat) (s : State) (r : Result α) (post : α → List Frame → Prop) : Prop :=
  match r with
  | .done a w => ∃ frames, State.Reaches c s (stateOf w frames) ∧ post a frames
  | .failed fault function w =>
    ∃ t u site, State.Reaches c s t ∧ t.Fails c ⟨fault, some site⟩ u ∧ function = some site.function ∧ worldOf u = w
  | .exhausted => ∃ t, State.Steps c n s t
  | .wrong => False

namespace Meets
variable {α β : Type} {c : Chunk} {m n : Nat} {s t : State} {w : World} {f : Frame} {callers frames : List Frame}

/-- Steps may come first. -/
theorem of_reaches {r : Result α} {post : α → List Frame → Prop} (h : State.Reaches c s t) (hr : Meets c n t r post) :
    Meets c n s r post := by
  cases r with
  | done a w =>
    obtain ⟨frames, hreach, hpost⟩ := hr
    exact ⟨frames, h.trans hreach, hpost⟩
  | failed fault function w =>
    obtain ⟨t', u, site, hreach, hfails⟩ := hr
    exact ⟨t', u, site, h.trans hreach, hfails⟩
  | exhausted =>
    obtain ⟨k, hk⟩ := h.steps
    obtain ⟨u, hu⟩ := hr
    exact (hk.trans hu).prior (Nat.le_add_left n k)
  | wrong => exact hr

theorem of_next {r : Result α} {post : α → List Frame → Prop} (h : s.Next c t) (hr : Meets c n t r post) :
    Meets c n s r post :=
  of_reaches (.single h) hr

/-- A step on the way lets the bound of the machine grow. -/
theorem succ {r : Result α} {post : α → List Frame → Prop} (h : s.Next c t) (hr : Meets c n t r post) :
    Meets c (n + 1) s r post := by
  cases r with
  | done a w => exact of_next (n := n) h hr
  | failed fault function w => exact of_next (n := n) h hr
  | exhausted =>
    obtain ⟨u, hu⟩ := hr
    exact ⟨u, .next h hu⟩
  | wrong => exact hr

theorem mono {r : Result α} {post post' : α → List Frame → Prop} (h : Meets c n s r post)
    (hpost : ∀ a frames, post a frames → post' a frames) : Meets c n s r post' := by
  cases r with
  | done a w =>
    obtain ⟨frames, hreach, hp⟩ := h
    exact ⟨frames, hreach, hpost a frames hp⟩
  | failed fault function w => exact h
  | exhausted => exact h
  | wrong => exact h

/-- The value that frames agree with is one that the evaluation gives. -/
theorem yields {x : Effect α} {post : α → List Frame → Prop} (h : Meets c n s (x w) post) :
    Meets c n s (x w) (fun a frames => post a frames ∧ ∃ w', x w = .done a w') := by
  cases hr : x w with
  | done a w' =>
    rw [hr] at h
    obtain ⟨frames, hreach, hpost⟩ := h
    exact ⟨frames, hreach, hpost, w', rfl⟩
  | failed fault function w' => rw [hr] at h; exact h
  | exhausted => rw [hr] at h; exact h
  | wrong => rw [hr] at h; exact h

/-- The frames may be led on to others where the evaluation ends. -/
theorem more {r : Result α} {post post' : α → List Frame → Prop} (h : Meets c n s r post)
    (hmore : ∀ a w frames, post a frames →
      ∃ frames', State.Reaches c (stateOf w frames) (stateOf w frames') ∧ post' a frames') :
    Meets c n s r post' := by
  cases r with
  | done a w =>
    obtain ⟨frames, hreach, hpost⟩ := h
    obtain ⟨frames', hreach', hpost'⟩ := hmore a w frames hpost
    exact ⟨frames', hreach.trans hreach', hpost'⟩
  | failed fault function w => exact h
  | exhausted => exact h
  | wrong => exact h

theorem of_le {r : Result α} {post : α → List Frame → Prop} (h : Meets c n s r post) (hle : m ≤ n) :
    Meets c m s r post := by
  cases r with
  | done a w => exact h
  | failed fault function w => exact h
  | exhausted =>
    obtain ⟨u, hu⟩ := h
    exact hu.prior hle
  | wrong => exact h

theorem pure {a : α} {post : α → List Frame → Prop} (h : post a frames) :
    Meets c n (stateOf w frames) ((Pure.pure a : Effect α) w) post :=
  ⟨frames, .refl _, h⟩

/-- Evaluations one after the other are met by runs one after the other. -/
theorem bind {x : Effect α} {k : α → Effect β} {mid : α → List Frame → Prop} {post : β → List Frame → Prop}
    (hx : Meets c n s (x w) mid)
    (hk : ∀ a w' frames, x w = .done a w' → mid a frames → Meets c n (stateOf w' frames) (k a w') post) :
    Meets c n s ((x >>= k) w) post := by
  show Meets c n s (Effect.bind x k w) post
  unfold Effect.bind
  cases hr : x w with
  | done a w' =>
    rw [hr] at hx
    obtain ⟨frames, hreach, hmid⟩ := hx
    exact of_reaches hreach (hk a w' frames hr hmid)
  | failed fault function w =>
    rw [hr] at hx
    exact hx
  | exhausted =>
    rw [hr] at hx
    exact hx
  | wrong =>
    rw [hr] at hx
    exact hx

/-! ### Single instructions -/

theorem next {i : Instr} {t : State} (hi : f.function.code[f.pc]? = some i)
    (h : State.exec c (stateOf w (f :: callers)) { f with pc := f.pc + 1 } callers i = .running t) :
    State.Next c (stateOf w (f :: callers)) t :=
  ⟨f, callers, i, State.next?_eq_some_iff.mpr ⟨rfl, hi⟩, h⟩

theorem fails {i : Instr} {u : State} {fault : Fault} {w' : World} {post : α → List Frame → Prop}
    (hi : f.function.code[f.pc]? = some i)
    (h : State.exec c (stateOf w (f :: callers)) { f with pc := f.pc + 1 } callers i = .faulted fault u)
    (hw : worldOf u = w') :
    Meets c n (stateOf w (f :: callers)) (.failed fault (some f.function.name) w') post :=
  ⟨_, u, f.site i, .refl _, ⟨f, callers, i, State.next?_eq_some_iff.mpr ⟨rfl, hi⟩, h, rfl⟩, rfl, hw⟩

/-- An operation that does what a computation on the heap does. -/
theorem compute {x : Heap → Except Fault (α × Option Change)} {o : Operation} {give : α → Operands}
    (hi : f.function.code[f.pc]? = some (.op o))
    (hx : o.apply w.heap f.stack = (fun r => (give r.1, r.2)) <$> x w.heap) :
    Meets c n (stateOf w (f :: callers)) (Effect.compute f.function.name x w)
      (fun a frames => frames = f.moved 1 (give a) :: callers) := by
  unfold Effect.compute
  cases hr : x w.heap with
  | error fault =>
    rw [hr] at hx
    have happly : o.apply w.heap f.stack = .error fault := hx
    refine fails (u := stateOf w (f :: callers)) hi ?_ rfl
    simp only [State.exec, stateOf, happly]
  | ok r =>
    obtain ⟨a, change⟩ := r
    rw [hr] at hx
    have happly : o.apply w.heap f.stack = .ok (give a, change) := hx
    refine ⟨f.moved 1 (give a) :: callers, .single (next hi ?_), rfl⟩
    simp only [State.exec, stateOf, happly]
    cases change <;> rfl

theorem load {slot : Nat} {v : Value} (hi : f.function.code[f.pc]? = some (.load slot)) (hv : f.locals[slot]? = some v) :
    State.Next c (stateOf w (f :: callers)) (stateOf w (f.moved 1 (v :: f.stack) :: callers)) := by
  refine next hi ?_
  simp only [State.exec, hv]
  rfl

theorem push {v : Value} (hi : f.function.code[f.pc]? = some (.op (.push v))) :
    State.Next c (stateOf w (f :: callers)) (stateOf w (f.moved 1 (v :: f.stack) :: callers)) :=
  next hi rfl

theorem store {slot : Nat} {v : Value} {stack : Operands} (hi : f.function.code[f.pc]? = some (.store slot))
    (hs : f.stack = v :: stack) :
    State.Next c (stateOf w (f :: callers))
      (stateOf w ({ f.moved 1 stack with locals := storeSlot v slot f.locals } :: callers)) := by
  refine next hi ?_
  simp only [State.exec, hs]
  rfl

theorem jump {target : Nat} (hi : f.function.code[f.pc]? = some (.jump target)) :
    State.Next c (stateOf w (f :: callers)) (stateOf w ({ f with pc := target } :: callers)) :=
  next hi rfl

theorem nop (hi : f.function.code[f.pc]? = some (.op .nop)) :
    State.Next c (stateOf w (f :: callers)) (stateOf w (f.moved 1 f.stack :: callers)) :=
  next hi rfl

theorem ret {v : Value} {stack : Operands} (hi : f.function.code[f.pc]? = some .ret) (hs : f.stack = v :: stack) :
    State.Next c (stateOf w (f :: callers)) (stateOf w (deliver v callers)) := by
  refine next hi ?_
  simp only [State.exec, State.leave_eq, hs]
  rfl

/-- A conditional jump that does what the test of a condition does. -/
theorem jumpUnless {target : Nat} {v : Value} {stack : Operands}
    (hi : f.function.code[f.pc]? = some (.jumpUnless target)) (hs : f.stack = v :: stack) :
    Meets c n (stateOf w (f :: callers)) (Effect.ofExcept f.function.name v.needBool w)
      (fun b frames => frames = { f with pc := if b then f.pc + 1 else target, stack := stack } :: callers) := by
  unfold Effect.ofExcept Effect.compute
  cases hb : v.needBool with
  | error fault =>
    refine fails (u := stateOf w (f :: callers)) hi ?_ rfl
    simp only [State.exec, hs, Operands.popBool_cons, hb]
    rfl
  | ok b =>
    refine ⟨_, .single (next hi ?_), rfl⟩
    simp only [State.exec, hs, Operands.popBool_cons, hb]
    rfl

theorem readLine (hi : f.function.code[f.pc]? = some .read) :
    Meets c n (stateOf w (f :: callers)) (Effect.readLine f.function.name w)
      (fun v frames => frames = f.moved 1 (v :: f.stack) :: callers) := by
  unfold Effect.readLine
  cases hr : w.input.readLine with
  | mk line input =>
    cases line with
    | error reason =>
      refine fails (u := { stateOf w (f :: callers) with input := input }) hi ?_ rfl
      simp only [State.exec, stateOf, hr]
    | ok line =>
      refine ⟨f.moved 1 (.str line :: f.stack) :: callers, .single (next hi ?_), rfl⟩
      simp only [State.exec, stateOf, hr]
      rfl

theorem write {v : Value} {stack : Operands} (hi : f.function.code[f.pc]? = some .write) (hs : f.stack = v :: stack) :
    Meets c n (stateOf w (f :: callers)) (Effect.write f.function.name v w)
      (fun _ frames => frames = f.moved 1 stack :: callers) := by
  unfold Effect.write
  cases hr : w.output.write v.text with
  | mk result output =>
    cases result with
    | error reason =>
      refine fails (u := { stateOf w (f :: callers) with output := output }) hi ?_ rfl
      simp only [State.exec, stateOf, hs, Operands.pop, hr]
    | ok u =>
      refine ⟨f.moved 1 stack :: callers, .single (next hi ?_), rfl⟩
      simp only [State.exec, stateOf, hs, Operands.pop, hr]
      rfl

end Meets
end Correctness
end Bytecode
