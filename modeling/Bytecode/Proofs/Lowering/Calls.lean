import Bytecode.Proofs.Evaluation.Program
import Bytecode.Proofs.Lowering.Functions
import Bytecode.Proofs.Machine.Effect

/-! Calls in a program and in its chunk. A name stands for a function of the chunk if it stands for one of the program, and
    the instruction of a call with the right number of arguments takes just these arguments. -/

namespace Bytecode.Lowering
open Evaluation

section
variable {layouts : Layouts} {p : Tree.Program} {c : Chunk} {name : String}

theorem builtin?_eq_none (h : builtinArity? name = none) : builtin? name = none := by
  unfold builtin?
  split
  all_goals first | rfl | cases h

theorem callInstr_eq (h : builtinArity? name = none) : callInstr name = .call name := by
  simp [callInstr, builtin?_eq_none h]

theorem function?_mem {f : Tree.Function} (h : function? p name = some f) : f ∈ p.functions ∧ f.name = name :=
  ⟨List.mem_of_find?_eq_some h, by simpa using List.find?_some h⟩

theorem get?_of_function? (hlower : lowerFunctions layouts {} p.functions = .ok c) {f : Tree.Function}
    (hf : function? p name = some f) : ∃ g, lowerFunction layouts f = .ok g ∧ c.get? name = some g := by
  have hget := lowerFunctions_get? hlower name
  rw [show p.functions.find? (fun f => f.name == name) = some f from hf] at hget
  exact hget

theorem get?_of_function?_none (hlower : lowerFunctions layouts {} p.functions = .ok c) (hf : function? p name = none) :
    c.get? name = none := by
  have hget := lowerFunctions_get? hlower name
  rw [show p.functions.find? (fun f => f.name == name) = none from hf] at hget
  exact hget

theorem rightArity_eq {args : List Tree.Expr} (h : rightArity p name args = true) (n : Nat) (hn : arity? p name = some n) :
    n = args.length := by
  unfold rightArity at h
  rw [hn] at h
  simpa using h

/-- The instruction of a function that every program knows takes as many operands as the function has arguments. -/
theorem takes_builtin {n : Nat} (h : builtinArity? name = some n) : (callInstr name).takes c = n := by
  unfold builtinArity? at h
  split at h <;> cases h <;> rfl

/-- A call with the right number of arguments takes just these, unless it is of no function at all. -/
theorem takes_callInstr (hlower : lowerFunctions layouts {} p.functions = .ok c) {args : List Tree.Expr}
    (hright : rightArity p name args = true) (hresolves : (callInstr name).Resolves c) :
    (callInstr name).takes c = args.length := by
  cases hbuiltin : builtinArity? name with
  | some n =>
    rw [takes_builtin hbuiltin]
    exact rightArity_eq hright n (by simp [arity?, hbuiltin])
  | none =>
    rw [callInstr_eq hbuiltin] at hresolves ⊢
    cases hf : function? p name with
    | none =>
      have hsome := hresolves name rfl
      rw [get?_of_function?_none hlower hf] at hsome
      cases hsome
    | some f =>
      obtain ⟨g, hg, hget⟩ := get?_of_function? hlower hf
      have harity := rightArity_eq hright f.params.length (by simp [arity?, hbuiltin, hf])
      simp [Instr.takes, hget, lowerFunction_arity hg, harity]

theorem gives_callInstr (h : name ≠ "print") : (callInstr name).gives = 1 := by
  unfold callInstr builtin?
  split
  · exact absurd rfl h
  all_goals rfl

end

end Bytecode.Lowering
