import Bytecode.Proofs.Lowering.Control
import Bytecode.Proofs.Lowering.Functions

/-! The instructions of lowered code. What holds of each instruction that lowering may emit holds of each instruction of a
    lowered program; so none of them puts a reference of its own on the operands. -/

namespace Bytecode

def Instr.objectFree : Instr → Bool
  | .op o => o.objectFree
  | _ => true

/-- No instruction of the chunk puts a reference of its own on the operands. -/
def Chunk.ObjectFree (c : Chunk) : Prop :=
  ∀ f ∈ c.functions, ∀ i ∈ f.code, i.objectFree = true

namespace Lowering

/-- What holds of each instruction that lowered code may consist of. -/
structure OfCode (P : Instr → Prop) : Prop where
  op (o : Operation) (ho : o.objectFree = true) : P (.op o)
  load (slot : Nat) : P (.load slot)
  store (slot : Nat) : P (.store slot)
  call (name : String) : P (callInstr name)
  jump (target : Nat) : P (.jump target)
  jumpUnless (target : Nat) : P (.jumpUnless target)
  ret : P .ret

namespace OfCode
variable {P : Instr → Prop} (h : OfCode P) {layouts : Layouts} {scope : Scope} {code : List Instr}
include h

theorem ofInstr (scope : Scope) : OfInstr scope P :=
  ⟨h.op, fun {_ slot} _ => h.load slot, h.store, h.call⟩

theorem expr {e : Tree.Expr} (hcode : exprCode layouts scope e = .ok code) : Each P code :=
  ((h.ofInstr scope).exprCases layouts).expr hcode

theorem args {args : List Tree.Expr} (hcode : argsCode layouts scope args = .ok code) : Each P code :=
  ((h.ofInstr scope).exprCases layouts).args hcode

theorem assign {a : Tree.Assignment} (hcode : assignCode layouts scope a = .ok code) : Each P code :=
  (AssignCases.assign ((h.ofInstr scope).exprCases layouts) (h.ofInstr scope).assignCases hcode).2

theorem loop {condition body : List Instr} (hcondition : Each P condition) (hbody : Each P body) (start : Nat) :
    Each P (loopCode start condition body) := by
  unfold loopCode
  simp only [each_append, each_cons, each_nil, and_true]
  exact ⟨⟨hcondition, h.jumpUnless _, hbody⟩, h.jump _, h.op _ rfl⟩

theorem chain {branches : List (List Instr × List Instr)} (hbranches : ∀ b ∈ branches, Each P b.1 ∧ Each P b.2)
    (start exit : Nat) : Each P (chainCode start exit branches) := by
  induction branches generalizing start with
  | nil => exact each_nil
  | cons branch rest ih =>
    obtain ⟨⟨hcondition, hbody⟩, hrest⟩ := List.forall_mem_cons.mp hbranches
    unfold chainCode
    simp only [each_append, each_cons]
    exact ⟨⟨hcondition, h.jumpUnless _, hbody⟩, h.jump _, ih hrest _⟩

theorem stmtCases (layouts : Layouts) :
    StmtCases layouts (fun _ _ _ code _ => Each P code) (fun _ _ _ code _ => Each P code)
      (fun _ _ _ branch _ => Each P branch.1 ∧ Each P branch.2)
      (fun _ _ _ branches _ => ∀ b ∈ branches, Each P b.1 ∧ Each P b.2) where
  declare hinit := each_append.mpr ⟨h.expr hinit, each_cons.mpr ⟨h.store _, each_nil⟩⟩
  assign ha := h.assign ha
  call {_ _ name _ _} hargs := by
    rw [each_append, each_cons]
    refine ⟨h.args hargs, h.call name, ?_⟩
    split
    · exact each_nil
    · exact each_cons.mpr ⟨h.op _ rfl, each_nil⟩
  choose _ hfirst _ hothers _ hotherwise := by
    simp only [each_append, each_cons, each_nil, and_true]
    exact ⟨⟨h.chain (List.forall_mem_cons.mpr ⟨hfirst, hothers⟩) _ _, hotherwise⟩, h.op _ rfl⟩
  loop hcondition _ hbody := h.loop (h.expr hcondition) hbody _
  count hinit hcondition _ hbody hstep := by
    simp only [each_append, each_cons, each_nil, and_true]
    exact ⟨⟨h.expr hinit, h.store _⟩, h.loop (h.expr hcondition) (each_append.mpr ⟨hbody, h.assign hstep⟩) _⟩
  ret he := each_append.mpr ⟨h.expr he, each_cons.mpr ⟨h.ret, each_nil⟩⟩
  none _ _ := each_nil
  more _ hs _ hrest := each_append.mpr ⟨hs, hrest⟩
  branch hcondition _ hbody := ⟨h.expr hcondition, hbody⟩
  noBranches _ _ := fun _ hb => absurd hb List.not_mem_nil
  branches _ hb _ hrest := List.forall_mem_cons.mpr ⟨hb, hrest⟩

theorem function {f : Tree.Function} {g : Function} (hg : lowerFunction layouts f = .ok g) : Each P g.code.toList := by
  obtain ⟨body, scope, hbody, rfl⟩ := lowerFunction_eq_ok hg
  have hcode : Each P (paramCode f.params ++ body) := by
    rw [each_append]
    refine ⟨fun i hi => ?_, (h.stmtCases layouts).stmts hbody⟩
    obtain ⟨slot, -, rfl⟩ := List.mem_map.mp hi
    exact h.store slot
  rcases withReturn_cases (paramCode f.params ++ body) with ⟨-, heq⟩ | ⟨-, heq⟩
  · rw [heq]
    exact hcode
  · rw [heq]
    exact each_append.mpr ⟨hcode, each_cons.mpr ⟨h.op _ rfl, each_cons.mpr ⟨h.ret, each_nil⟩⟩⟩

/-- Each instruction of a lowered program. -/
theorem lower {g : Generator} {p : Tree.Program} {c : Chunk} (hc : (g.lower p).1 = .ok c) :
    ∀ f ∈ c.functions, Each P f.code.toList := by
  intro f hf
  rcases lowerFunctions_mem hc hf with hmem | ⟨f', -, hf'⟩
  · exact absurd hmem List.not_mem_nil
  · exact h.function hf'

end OfCode

theorem ofCode_objectFree : OfCode fun i => i.objectFree = true where
  op _ ho := ho
  load _ := rfl
  store _ := rfl
  call name := by
    unfold callInstr builtin?
    split <;> rfl
  jump _ := rfl
  jumpUnless _ := rfl
  ret := rfl

/-- Lowered programs have no references of their own: no literal is one. -/
theorem lower_objectFree {g : Generator} {p : Tree.Program} {c : Chunk} (h : (g.lower p).1 = .ok c) : c.ObjectFree :=
  fun f hf i hi => ofCode_objectFree.lower h f hf i (Array.mem_toList_iff.mpr hi)

end Lowering
end Bytecode
