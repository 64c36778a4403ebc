import Bytecode.Proofs.Correctness.Env
import Bytecode.Proofs.Correctness.Meets

/-! Pieces of code that do what an evaluation does. A piece takes operands from the stack, leaves others there for the
    value of the evaluation, and touches neither the slots of its frame nor the operands below. Pieces are put together as
    evaluations are (`Does.bind`). -/

namespace Bytecode.Correctness
open Evaluation Lowering

/-- Where evaluation and code go side by side: the chunk and the place of evaluation. An evaluation that is exhausted
stands for as many steps as the place allows rounds of a loop. -/
structure Setting where
  chunk : Chunk
  context : Context

/-- A frame of the function that is evaluated, with slots that hold the variables in scope. -/
structure Setting.Frames (k : Setting) (scope : Scope) (env : Env) (f : Frame) : Prop where
  name : f.function.name = k.context.function
  holds : Holds scope f.locals env

/-- Code that does what an evaluation does: it takes operands, the top first, and leaves those that belong to the value in
their place. -/
def Does {α : Type} (k : Setting) (scope : Scope) (env : Env) (code : List Instr) (x : Effect α) (take : Operands)
    (give : α → Operands) : Prop :=
  ∀ (f : Frame) (callers : List Frame) (w : World) (rest : Operands),
    At f code → k.Frames scope env f → f.stack = take ++ rest →
    Meets k.chunk k.context.rounds (stateOf w (f :: callers)) (x w)
      (fun a frames => frames = f.moved code.length (give a ++ rest) :: callers)

/-- A value comes out of an evaluation. -/
def Yields {α : Type} (x : Effect α) (a : α) : Prop :=
  ∃ w w', x w = .done a w'

theorem Yields.bind {α β : Type} {x : Effect α} {y : α → Effect β} {b : β} (h : Yields (x >>= y) b) :
    ∃ a, Yields x a ∧ Yields (y a) b := by
  obtain ⟨w, w', hdone⟩ := h
  replace hdone : Effect.bind x y w = .done b w' := hdone
  unfold Effect.bind at hdone
  cases hx : x w with
  | done a w₁ =>
    rw [hx] at hdone
    exact ⟨a, ⟨w, w₁, hx⟩, ⟨w₁, w', hdone⟩⟩
  | failed fault function w₁ =>
    rw [hx] at hdone
    cases hdone
  | exhausted =>
    rw [hx] at hdone
    cases hdone
  | wrong =>
    rw [hx] at hdone
    cases hdone

theorem Yields.pure {α : Type} {a b : α} (h : Yields (Pure.pure a : Effect α) b) : a = b := by
  obtain ⟨w, w', hdone⟩ := h
  cases hdone
  rfl

theorem Setting.Frames.moved {k : Setting} {scope : Scope} {env : Env} {f : Frame} (h : k.Frames scope env f) (n : Nat)
    (stack : Operands) : k.Frames scope env (f.moved n stack) :=
  ⟨h.name, h.holds⟩

namespace Does
variable {k : Setting} {scope : Scope} {env : Env} {α β : Type} {code code' : List Instr} {x : Effect α} {take : Operands}
  {give : α → Operands}

theorem bind {y : α → Effect β} {give' : β → Operands} (hx : Does k scope env code x take give)
    (hy : ∀ a, Yields x a → Does k scope env code' (y a) (give a) give') :
    Does k scope env (code ++ code') (x >>= y) take give' := by
  intro f callers w rest hat hf hstack
  refine Meets.bind (hx f callers w rest hat.left hf hstack) fun a w' frames hdone hframes => ?_
  subst hframes
  have hmeets := hy a ⟨w, w', hdone⟩ _ callers w' rest (hat.right _) (hf.moved _ _) rfl
  refine hmeets.mono fun b frames hframes => ?_
  rw [hframes, Frame.moved_moved, List.length_append]

/-- Code does not touch the operands below those it takes. -/
theorem frame (h : Does k scope env code x take give) (more : Operands) :
    Does k scope env code x (take ++ more) (fun a => give a ++ more) := by
  intro f callers w rest hat hf hstack
  rw [List.append_assoc] at hstack
  refine (h f callers w (more ++ rest) hat hf hstack).mono fun a frames hframes => ?_
  rw [hframes, List.append_assoc]

theorem pure {a : α} (h : take = give a) : Does k scope env [] (Pure.pure a) take give := by
  intro f callers w rest _ _ hstack
  refine Meets.pure ?_
  rw [← h, ← hstack]
  rfl

theorem map {g : α → β} {give' : β → Operands} (h : Does k scope env code x take give)
    (hgive : ∀ a, Yields x a → give a = give' (g a)) :
    Does k scope env code (x >>= fun a => Pure.pure (g a)) take give' := by
  have hbind : Does k scope env (code ++ []) (x >>= fun a => Pure.pure (g a)) take give' :=
    h.bind fun a ha => pure (hgive a ha)
  rwa [List.append_nil] at hbind

/-! ### Single instructions -/

theorem compute {y : Heap → Except Fault (α × Option Change)} {o : Operation}
    (h : ∀ heap rest, o.apply heap (take ++ rest) = (fun r => (give r.1 ++ rest, r.2)) <$> y heap) :
    Does k scope env [.op o] (Effect.compute k.context.function y) take give := by
  intro f callers w rest hat hf hstack
  have happly := h w.heap rest
  rw [← hstack] at happly
  rw [← hf.name]
  exact Meets.compute hat.head happly

theorem ofExcept {y : Except Fault α} {o : Operation}
    (h : ∀ heap rest, o.apply heap (take ++ rest) = (fun a => (give a ++ rest, none)) <$> y) :
    Does k scope env [.op o] (Effect.ofExcept k.context.function y) take give := by
  refine compute fun heap rest => ?_
  rw [h heap rest]
  cases y <;> rfl

/-- An instruction that the evaluation knows nothing of. -/
theorem silent {i : Instr} {take' : Operands} (h : Does k scope env code x take' give)
    (hi : ∀ (f : Frame) (callers : List Frame) (w : World) (rest : Operands), k.Frames scope env f →
      f.function.code[f.pc]? = some i → f.stack = take ++ rest →
      State.Next k.chunk (stateOf w (f :: callers)) (stateOf w (f.moved 1 (take' ++ rest) :: callers))) :
    Does k scope env (i :: code) x take give := by
  intro f callers w rest hat hf hstack
  refine Meets.of_next (hi f callers w rest hf hat.head hstack) ?_
  refine (h _ callers w rest (hat.tail _) (hf.moved _ _) rfl).mono fun a frames hframes => ?_
  rw [hframes, Frame.moved_moved, List.length_cons, Nat.add_comm]

theorem push {v : Value} (h : Does k scope env code x (v :: take) give) :
    Does k scope env (.op (.push v) :: code) x take give := by
  refine h.silent fun f callers w rest _ hi hstack => ?_
  have hnext : State.Next k.chunk (stateOf w (f :: callers)) _ := Meets.push hi
  rw [hstack] at hnext
  exact hnext

theorem dup {v : Value} (h : Does k scope env code x (v :: v :: take) give) :
    Does k scope env (.op .dup :: code) x (v :: take) give := by
  refine h.silent fun f callers w rest _ hi hstack => Meets.next hi ?_
  simp only [State.exec, Operation.apply, hstack]
  rfl

theorem pop {v : Value} (h : Does k scope env code x take give) :
    Does k scope env (.op .pop :: code) x (v :: take) give := by
  refine h.silent fun f callers w rest _ hi hstack => Meets.next hi ?_
  simp only [State.exec, Operation.apply, hstack]
  rfl

theorem load {name : String} {slot : Nat} (hslot : scope.find? name = some slot) :
    Does k scope env [.load slot] (.ofOption (env.find? name)) [] (fun v => [v]) := by
  intro f callers w rest hat hf hstack
  obtain ⟨v, hv, henv⟩ := hf.holds.find? hslot
  rw [henv]
  have hnext : State.Next k.chunk (stateOf w (f :: callers)) _ := Meets.load hat.head hv
  rw [hstack] at hnext
  exact Meets.of_next hnext (Meets.pure rfl)

end Does
end Bytecode.Correctness
