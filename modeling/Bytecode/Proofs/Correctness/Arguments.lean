import Bytecode.Proofs.Correctness.Env
import Bytecode.Proofs.Correctness.Meets
import Bytecode.Proofs.Lowering.Control
import Bytecode.Proofs.Lowering.Functions

/-! How arguments reach parameters. A call hands the arguments over with the first one on top, and the code of a function
    starts with a store for each parameter. After any number of these stores that many arguments are in the first slots, in
    their order, and the others are still operands (`next_entering`, `steps_entering`). -/

namespace Bytecode
namespace Lowering

/-- The code of a function starts with a store for each parameter. -/
theorem lowerFunction_stores {layouts : Layouts} {f : Tree.Function} {g : Function} (h : lowerFunction layouts f = .ok g)
    {i : Nat} (hi : i < f.params.length) : g.code[i]? = some (.store i) := by
  obtain ⟨body, scope, -, rfl⟩ := lowerFunction_eq_ok h
  have hstore : (paramCode f.params)[i]? = some (.store i) := by simp [paramCode, hi]
  simpa using (placed_code f.params body).1.get hstore

end Lowering

/-- The frame of a function that has put some of its arguments, from the first one on, into its slots. The others are
still its operands. -/
def Frame.entering (g : Function) (args : List Value) (n : Nat) : Frame where
  function := g
  pc := n
  stack := args.drop n
  locals := args.take n

theorem Frame.entering_length (g : Function) (args : List Value) :
    entering g args args.length = { function := g, pc := args.length, stack := [], locals := args } := by
  simp [entering]

namespace Correctness
open Evaluation Lowering

section
variable {c : Chunk} {w : World} {g : Function} {args : List Value} {callers : List Frame}

theorem next_call {f : Frame} {name : String} {rest : Operands} (hi : f.function.code[f.pc]? = some (.call name))
    (hget : c.get? name = some g) (harity : g.arity = args.length) (hstack : f.stack = args.reverse ++ rest) :
    State.Next c (stateOf w (f :: callers)) (stateOf w ({ function := g, stack := args } :: f.moved 1 rest :: callers)) := by
  refine Meets.next hi ?_
  have henough : ¬f.stack.length < g.arity := by
    rw [hstack, harity]
    simp
  have htake : (f.stack.take g.arity).reverse = args := by
    rw [hstack, harity, ← List.length_reverse, List.take_left, List.reverse_reverse]
  have hdrop : f.stack.drop g.arity = rest := by
    rw [hstack, harity, ← List.length_reverse, List.drop_left]
  simp only [State.exec, State.call, hget, if_neg henough, htake, hdrop]
  rfl

/-- A store moves the next argument into the slot behind those that are filled. -/
theorem next_entering {n : Nat} (hi : g.code[n]? = some (.store n)) (hn : n < args.length) :
    State.Next c (stateOf w (.entering g args n :: callers)) (stateOf w (.entering g args (n + 1) :: callers)) := by
  have hstack : (Frame.entering g args n).stack = args[n] :: args.drop (n + 1) := List.drop_eq_getElem_cons hn
  -- The slots are filled without a gap, so that the store appends to them.
  have hlocals : storeSlot args[n] n (args.take n) = args.take (n + 1) := by
    have hstore := storeSlot_length args[n] (args.take n)
    rwa [List.length_take_of_le (Nat.le_of_lt hn), List.take_append_getElem] at hstore
  have hnext : State.Next c (stateOf w (.entering g args n :: callers)) _ := Meets.store hi hstack
  rw [show (Frame.entering g args n).locals = args.take n from rfl, hlocals] at hnext
  exact hnext

theorem steps_entering (hcode : ∀ i < args.length, g.code[i]? = some (.store i)) {n : Nat} (hn : n ≤ args.length) :
    State.Steps c n (stateOf w ({ function := g, stack := args } :: callers))
      (stateOf w (.entering g args n :: callers)) := by
  induction n with
  | zero => exact .refl _
  | succ n ih => exact (ih (Nat.le_of_succ_le hn)).trans (.single (next_entering (hcode n hn) hn))

end

/-- Arguments reach their parameters. Wherever a function of a lowered program is called with as many arguments on top of the
operands of the caller as it has parameters, the last one topmost, the call and the first instructions of the function, one
for each parameter, bring the arguments into its slots in the order in which they were pushed, and split them between slots
and operands on the way. The function is left without operands, and the caller with those below the arguments. So the slot of
the number of a parameter holds the argument of that number, and the body knows the parameter by this slot unless a later one
has its name. -/
theorem arguments_reach_parameters {gen : Generator} {p : Tree.Program} {lowered c : Chunk}
    (hlower : (gen.lower p).1 = .ok lowered) {f : Tree.Function} (hf : f ∈ p.functions)
    (hsame : c.get? f.name = lowered.get? f.name) {s : State} {caller : Frame} {callers : List Frame}
    (hcall : s.next? = some (caller, callers, .call f.name)) {args : List Value} {rest : Operands}
    (hargs : args.length = f.params.length) (hstack : caller.stack = args.reverse ++ rest) :
    ∃ g callee, c.get? f.name = some g ∧
      callee = { function := g, pc := f.params.length, stack := [], locals := args } ∧
      State.Steps c (f.params.length + 1) s
        (s.withFrames (callee :: { caller with pc := caller.pc + 1, stack := rest } :: callers)) ∧
      (∀ k ≤ f.params.length, State.Steps c (k + 1) s
        (s.withFrames ({ function := g, pc := k, stack := args.drop k, locals := args.take k } ::
          { caller with pc := caller.pc + 1, stack := rest } :: callers))) ∧
      ∀ i param, f.params[i]? = some param →
        g.code[i]? = some (.store i) ∧ (∃ v, args[i]? = some v ∧ callee.locals[i]? = some v) ∧
          ((∀ other ∈ f.params.drop (i + 1), other.name ≠ param.name) →
            (paramScope f.params).find? param.name = some i) := by
  obtain ⟨g, hg, hget⟩ := lowerFunctions_of_mem hlower hf
  rw [← hsame] at hget
  have hstores : ∀ i < args.length, g.code[i]? = some (.store i) := fun i hi => lowerFunction_stores hg (hargs ▸ hi)
  -- The call is one step, and each argument is stored by a step of its own.
  have hsteps : ∀ k ≤ f.params.length, State.Steps c (k + 1) s
      (stateOf (worldOf s) (.entering g args k :: caller.moved 1 rest :: callers)) := by
    intro k hk
    obtain ⟨hframes, hi⟩ := State.next?_eq_some_iff.mp hcall
    have hs : s = stateOf (worldOf s) (caller :: callers) := hframes ▸ rfl
    rw [hs]
    exact .next (next_call hi hget ((lowerFunction_arity hg).trans hargs.symm) hstack)
      (steps_entering hstores (hargs ▸ hk))
  refine ⟨g, _, hget, rfl, ?_, hsteps, fun i param hi => ?_⟩
  · have hlast := hsteps f.params.length (Nat.le_refl _)
    rw [← hargs, Frame.entering_length] at hlast
    rw [← hargs]
    exact hlast
  · have hlt : i < args.length := hargs ▸ (List.getElem?_eq_some_iff.mp hi).1
    exact ⟨hstores i hlt, ⟨args[i], List.getElem?_eq_getElem hlt, List.getElem?_eq_getElem hlt⟩, find?_paramScope hi⟩

/-- A function of three parameters, the last of which has the name of the first. -/
def mix : Tree.Function where
  name := "mix"
  result := { name := "int" }
  params := [⟨"a", { name := "int" }⟩, ⟨"b", { name := "int" }⟩, ⟨"a", { name := "int" }⟩]
  body := [.ret (.binary .sub (.var "a") (.var "b"))]

/-- A program that calls the function while it has an operand of its own. -/
def mixing : Tree.Program where
  functions := [
    { name := "main", result := .void, body := [
        .print (.binary .sub (.literal (.int 9))
          (.call "mix" [.literal (.int 1), .literal (.int 2), .literal (.int 3)]))] },
    mix]

/-- The frame of the caller before the call. -/
def mixingCaller : Frame where
  function := ⟨"main", 0, #[.op (.push (.int 9)), .op (.push (.int 1)), .op (.push (.int 2)), .op (.push (.int 3)),
    .call "mix", .op (.arith .sub), .write, .op (.push .null), .ret]⟩
  pc := 4
  stack := [.int 3, .int 2, .int 1, .int 9]

/-- The chunk of the program. -/
def mixingChunk : Chunk where
  functions := [mixingCaller.function,
    ⟨"mix", 3, #[.store 0, .store 1, .store 2, .load 2, .load 1, .op (.arith .sub), .ret]⟩]

theorem mixing_arguments_reach_parameters :
    (Generator.lower {} mixing).1 = .ok mixingChunk ∧ mix ∈ mixing.functions ∧
      mixingCaller.stack = [.int 1, .int 2, .int 3].reverse ++ [.int 9] ∧
      (∃ callee, callee.locals = [.int 1, .int 2, .int 3] ∧ callee.stack = [] ∧ callee.pc = 3 ∧
        State.Steps mixingChunk 4 { frames := [mixingCaller] }
          { frames := [callee, { mixingCaller with pc := 5, stack := [.int 9] }] }) ∧
      (paramScope mix.params).find? "a" = some 2 := by
  have hlower : (Generator.lower {} mixing).1 = .ok mixingChunk := rfl
  have hmem : mix ∈ mixing.functions := List.mem_cons_of_mem _ List.mem_cons_self
  have hstack : mixingCaller.stack = [.int 1, .int 2, .int 3].reverse ++ [.int 9] := rfl
  obtain ⟨g, callee, -, rfl, hsteps, -, hparams⟩ := arguments_reach_parameters (s := { frames := [mixingCaller] })
    hlower hmem rfl rfl rfl hstack
  obtain ⟨-, -, hslot⟩ := hparams 2 ⟨"a", { name := "int" }⟩ rfl
  exact ⟨hlower, hmem, hstack, ⟨_, rfl, rfl, rfl, hsteps⟩, hslot (List.forall_mem_nil _)⟩

end Correctness
end Bytecode
