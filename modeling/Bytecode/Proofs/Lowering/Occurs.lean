import Bytecode.Proofs.Lowering.Control
import Bytecode.Proofs.Lowering.Placed

/-! Statements inside statements. Wherever a statement occurs in the body of a function, its code stands in the code of the
    function, at the index and for the scope that the occurrence has. -/

namespace Bytecode.Lowering

/-- A branch occurs among branches that are lowered at an index, with the scope and the index for which it is lowered. -/
inductive BranchAt (layouts : Layouts) : Scope → Nat → List Tree.Branch → Scope → Nat → Tree.Branch → Prop where
  | here {scope : Scope} {start : Nat} {b : Tree.Branch} {rest : List Tree.Branch} :
    BranchAt layouts scope start (b :: rest) scope start b
  | later {scope scope₁ scope' : Scope} {start start' : Nat} {b b' : Tree.Branch} {rest : List Tree.Branch}
    {branch : List Instr × List Instr} (hb : branchCode layouts scope start b = .ok (branch, scope₁))
    (h : BranchAt layouts scope₁ (start + chainLength [branch]) rest scope' start' b') :
    BranchAt layouts scope start (b :: rest) scope' start' b'

/-- A statement occurs in statements that are lowered at an index, with the scope and the index for which it is lowered. -/
inductive StmtAt (layouts : Layouts) : Scope → Nat → List Tree.Stmt → Scope → Nat → Tree.Stmt → Prop where
  | here {scope : Scope} {start : Nat} {s : Tree.Stmt} {rest : List Tree.Stmt} :
    StmtAt layouts scope start (s :: rest) scope start s
  | later {scope scope₁ scope' : Scope} {start start' : Nat} {s s' : Tree.Stmt} {rest : List Tree.Stmt}
    {code : List Instr} (hs : stmtCode layouts scope start s = .ok (code, scope₁))
    (h : StmtAt layouts scope₁ (start + code.length) rest scope' start' s') :
    StmtAt layouts scope start (s :: rest) scope' start' s'
  | loop {scope scope' : Scope} {start start' : Nat} {condition : Tree.Expr} {body rest : List Tree.Stmt} {s' : Tree.Stmt}
    {code : List Instr} (hcondition : exprCode layouts scope condition = .ok code)
    (h : StmtAt layouts scope.enter (start + code.length + 1) body scope' start' s') :
    StmtAt layouts scope start (.loop condition body :: rest) scope' start' s'
  | count {scope scope' : Scope} {start start' : Nat} {init : Tree.Declaration} {condition : Tree.Expr}
    {step : Tree.Assignment} {body rest : List Tree.Stmt} {s' : Tree.Stmt} {icode code : List Instr}
    (hinit : exprCode layouts scope.enter init.init = .ok icode)
    (hcondition : exprCode layouts (scope.enter.declare init.var.name) condition = .ok code)
    (h : StmtAt layouts (scope.enter.declare init.var.name).enter (start + (icode.length + 1) + code.length + 1) body
      scope' start' s') :
    StmtAt layouts scope start (.count init condition step body :: rest) scope' start' s'
  | branch {scope scope₁ scope' : Scope} {start start₁ start' : Nat} {first : Tree.Branch} {others : List Tree.Branch}
    {otherwise rest body : List Tree.Stmt} {condition : Tree.Expr} {s' : Tree.Stmt} {code : List Instr}
    (hbranch : BranchAt layouts scope start (first :: others) scope₁ start₁ (.mk condition body))
    (hcondition : exprCode layouts scope₁ condition = .ok code)
    (h : StmtAt layouts scope₁.enter (start₁ + code.length + 1) body scope' start' s') :
    StmtAt layouts scope start (.choose first others otherwise :: rest) scope' start' s'
  | otherwise {scope scope₁ scope' : Scope} {start start' : Nat} {first : Tree.Branch} {others : List Tree.Branch}
    {otherwise rest : List Tree.Stmt} {s' : Tree.Stmt} {branches : List (List Instr × List Instr)}
    (hbranches : branchesCode layouts scope start (first :: others) = .ok (branches, scope₁))
    (h : StmtAt layouts scope₁.enter (start + chainLength branches) otherwise scope' start' s') :
    StmtAt layouts scope start (.choose first others otherwise :: rest) scope' start' s'

/-- The scope and the index at which each round of a loop starts, where its condition is tested. -/
def loopHead? (layouts : Layouts) (scope : Scope) (start : Nat) : Tree.Stmt → Option (Scope × Nat)
  | .loop .. => some (scope, start)
  | .count init .. =>
    match exprCode layouts scope.enter init.init with
    | .ok code => some (scope.enter.declare init.var.name, start + (code.length + 1))
    | .error _ => none
  | _ => none

section
variable {layouts : Layouts} {scope scope₁ scope' : Scope} {start start' : Nat} {whole : List Instr}

/-! ### Parts of lowered code -/

theorem branchesCode_cons {b : Tree.Branch} {rest : List Tree.Branch} {branches : List (List Instr × List Instr)}
    (h : branchesCode layouts scope start (b :: rest) = .ok (branches, scope')) :
    ∃ branch scope₁ branches', branchCode layouts scope start b = .ok (branch, scope₁) ∧
      branchesCode layouts scope₁ (start + chainLength [branch]) rest = .ok (branches', scope') ∧
      branches = branch :: branches' := by
  simp only [branchesCode, Except.bind_eq_ok_iff, Except.pure_eq_ok_iff, Prod.exists, Prod.mk.injEq] at h
  obtain ⟨condition, body, scope₁, hb, branches', _, hrest, rfl, rfl⟩ := h
  exact ⟨(condition, body), scope₁, branches', hb, hrest, rfl⟩

theorem branchesCode_of_cons {b : Tree.Branch} {rest : List Tree.Branch} {branch : List Instr × List Instr}
    {branches : List (List Instr × List Instr)} (hb : branchCode layouts scope start b = .ok (branch, scope₁))
    (hrest : branchesCode layouts scope₁ (start + chainLength [branch]) rest = .ok (branches, scope')) :
    branchesCode layouts scope start (b :: rest) = .ok (branch :: branches, scope') := by
  rw [branchesCode]
  exact Except.bind_eq_ok_iff.mpr ⟨_, hb, Except.bind_eq_ok_iff.mpr ⟨_, hrest, rfl⟩⟩

theorem branchCode_mk {condition : Tree.Expr} {body : List Tree.Stmt} {branch : List Instr × List Instr}
    (h : branchCode layouts scope start (.mk condition body) = .ok (branch, scope')) :
    ∃ code code' scope₁, exprCode layouts scope condition = .ok code ∧
      stmtsCode layouts scope.enter (start + code.length + 1) body = .ok (code', scope₁) ∧ branch = (code, code') := by
  simp only [branchCode, Except.bind_eq_ok_iff, Except.pure_eq_ok_iff, Prod.exists, Prod.mk.injEq] at h
  obtain ⟨code, hcondition, code', scope₁, hbody, rfl, -⟩ := h
  exact ⟨code, code', scope₁, hcondition, hbody, rfl⟩

theorem stmtsCode_cons {s : Tree.Stmt} {rest : List Tree.Stmt} {code : List Instr}
    (h : stmtsCode layouts scope start (s :: rest) = .ok (code, scope')) :
    ∃ code₁ scope₁ code₂, stmtCode layouts scope start s = .ok (code₁, scope₁) ∧
      stmtsCode layouts scope₁ (start + code₁.length) rest = .ok (code₂, scope') ∧ code = code₁ ++ code₂ := by
  simp only [stmtsCode, Except.bind_eq_ok_iff, Except.pure_eq_ok_iff, Prod.exists, Prod.mk.injEq] at h
  obtain ⟨code₁, scope₁, hs, code₂, _, hrest, rfl, rfl⟩ := h
  exact ⟨code₁, scope₁, code₂, hs, hrest, rfl⟩

/-- The parts of a choice: its branches in a chain, and what happens otherwise. -/
theorem stmtCode_choose {first : Tree.Branch} {others : List Tree.Branch} {otherwise : List Tree.Stmt} {code : List Instr}
    (h : stmtCode layouts scope start (.choose first others otherwise) = .ok (code, scope')) :
    ∃ branches scope₁ code' scope₂, branchesCode layouts scope start (first :: others) = .ok (branches, scope₁) ∧
      stmtsCode layouts scope₁.enter (start + chainLength branches) otherwise = .ok (code', scope₂) ∧
      code = chainCode start (start + chainLength branches + code'.length) branches ++ code' ++ [.op .nop] := by
  simp only [stmtCode, Except.bind_eq_ok_iff, Except.pure_eq_ok_iff, Prod.exists, Prod.mk.injEq] at h
  obtain ⟨condition, body, scope₁, hfirst, branches, scope₂, hothers, code', scope₃, hotherwise, rfl, -⟩ := h
  exact ⟨(condition, body) :: branches, scope₂, code', scope₃, branchesCode_of_cons hfirst hothers, hotherwise, rfl⟩

theorem stmtCode_loop {condition : Tree.Expr} {body : List Tree.Stmt} {code : List Instr}
    (h : stmtCode layouts scope start (.loop condition body) = .ok (code, scope')) :
    ∃ code₁ code₂ scope₁, exprCode layouts scope condition = .ok code₁ ∧
      stmtsCode layouts scope.enter (start + code₁.length + 1) body = .ok (code₂, scope₁) ∧
      code = loopCode start code₁ code₂ := by
  simp only [stmtCode, Except.bind_eq_ok_iff, Except.pure_eq_ok_iff, Prod.exists, Prod.mk.injEq] at h
  obtain ⟨code₁, hcondition, code₂, scope₁, hbody, rfl, -⟩ := h
  exact ⟨code₁, code₂, scope₁, hcondition, hbody, rfl⟩

theorem stmtCode_count {init : Tree.Declaration} {condition : Tree.Expr} {step : Tree.Assignment} {body : List Tree.Stmt}
    {code : List Instr} (h : stmtCode layouts scope start (.count init condition step body) = .ok (code, scope')) :
    ∃ icode code₁ code₂ scode scope₁, exprCode layouts scope.enter init.init = .ok icode ∧
      exprCode layouts (scope.enter.declare init.var.name) condition = .ok code₁ ∧
      stmtsCode layouts (scope.enter.declare init.var.name).enter (start + (icode.length + 1) + code₁.length + 1) body =
        .ok (code₂, scope₁) ∧
      code = icode ++ [.store scope.next] ++ loopCode (start + (icode.length + 1)) code₁ (code₂ ++ scode) := by
  simp only [stmtCode, declareCode, Except.bind_eq_ok_iff, Except.pure_eq_ok_iff, Prod.exists, Prod.mk.injEq] at h
  obtain ⟨_, _, ⟨icode, hinit, rfl, rfl⟩, code₁, hcondition, code₂, scope₁, hbody, scode, -, rfl, -⟩ := h
  rw [List.length_append] at hbody
  rw [List.length_append]
  exact ⟨icode, code₁, code₂, scode, scope₁, hinit, hcondition, hbody, rfl⟩

/-! ### Occurrences -/

theorem BranchAt.placed {bs : List Tree.Branch} {b : Tree.Branch} (h : BranchAt layouts scope start bs scope' start' b)
    {branches : List (List Instr × List Instr)} (hcode : branchesCode layouts scope start bs = .ok (branches, scope₁))
    {exit : Nat} (hplaced : Placed whole start (chainCode start exit branches)) :
    ∃ branch scope₂, branchCode layouts scope' start' b = .ok (branch, scope₂) ∧
      Placed whole start' (chainCode start' exit [branch]) := by
  induction h generalizing branches with
  | here =>
    obtain ⟨branch, scope₂, branches', hb, -, rfl⟩ := branchesCode_cons hcode
    rw [chainCode_cons] at hplaced
    exact ⟨branch, scope₂, hb, hplaced.left⟩
  | later hb _ ih =>
    obtain ⟨branch, scope₂, branches', hb', hrest, rfl⟩ := branchesCode_cons hcode
    obtain ⟨rfl, rfl⟩ := Prod.mk.inj (Except.ok.inj (hb.symm.trans hb'))
    rw [chainCode_cons] at hplaced
    have hplacedRest := hplaced.right
    rw [length_chainCode] at hplacedRest
    exact ih hrest hplacedRest

/-- The code of a statement stands in the code of the statements in which it occurs. -/
theorem StmtAt.placed {stmts : List Tree.Stmt} {s : Tree.Stmt} (h : StmtAt layouts scope start stmts scope' start' s)
    {code : List Instr} (hcode : stmtsCode layouts scope start stmts = .ok (code, scope₁))
    (hplaced : Placed whole start code) :
    ∃ code' scope₂, stmtCode layouts scope' start' s = .ok (code', scope₂) ∧ Placed whole start' code' := by
  induction h generalizing code scope₁ with
  | here =>
    obtain ⟨code₁, scope₂, code₂, hs, -, rfl⟩ := stmtsCode_cons hcode
    exact ⟨code₁, scope₂, hs, hplaced.left⟩
  | later hs _ ih =>
    obtain ⟨code₁, scope₂, code₂, hs', hrest, rfl⟩ := stmtsCode_cons hcode
    obtain ⟨rfl, rfl⟩ := Prod.mk.inj (Except.ok.inj (hs.symm.trans hs'))
    exact ih hrest hplaced.right
  | loop hcondition _ ih =>
    obtain ⟨code₁, scope₂, code₂, hs, -, rfl⟩ := stmtsCode_cons hcode
    obtain ⟨ccode, bcode, scope₃, hcondition', hbody, rfl⟩ := stmtCode_loop hs
    obtain rfl := Except.ok.inj (hcondition.symm.trans hcondition')
    -- The body lies between the jump out of the loop and the jump back.
    obtain ⟨-, hplacedBody, -, -⟩ := hplaced.left.around
    exact ih hbody hplacedBody
  | count hinit hcondition _ ih =>
    obtain ⟨code₁, scope₂, code₂, hs, -, rfl⟩ := stmtsCode_cons hcode
    obtain ⟨icode, ccode, bcode, scode, scope₃, hinit', hcondition', hbody, rfl⟩ := stmtCode_count hs
    obtain rfl := Except.ok.inj (hinit.symm.trans hinit')
    obtain rfl := Except.ok.inj (hcondition.symm.trans hcondition')
    have hloop := hplaced.left.right
    rw [List.length_append] at hloop
    obtain ⟨-, hplacedBody, -, -⟩ := hloop.around
    exact ih hbody hplacedBody.left
  | branch hbranch hcondition _ ih =>
    obtain ⟨code₁, scope₂, code₂, hs, -, rfl⟩ := stmtsCode_cons hcode
    obtain ⟨branches, scope₃, code', scope₄, hbranches, -, rfl⟩ := stmtCode_choose hs
    obtain ⟨branch, scope₅, hb, hplacedBranch⟩ := hbranch.placed hbranches hplaced.left.left.left
    obtain ⟨ccode, bcode, scope₆, hcondition', hbody, rfl⟩ := branchCode_mk hb
    obtain rfl := Except.ok.inj (hcondition.symm.trans hcondition')
    obtain ⟨-, hplacedBody, -, -⟩ := Placed.around hplacedBranch
    exact ih hbody hplacedBody
  | otherwise hbranches _ ih =>
    obtain ⟨code₁, scope₂, code₂, hs, -, rfl⟩ := stmtsCode_cons hcode
    obtain ⟨branches, scope₃, code', scope₄, hbranches', hotherwise, rfl⟩ := stmtCode_choose hs
    obtain ⟨rfl, rfl⟩ := Prod.mk.inj (Except.ok.inj (hbranches.symm.trans hbranches'))
    have hplacedOtherwise := hplaced.left.left.right
    rw [length_chainCode] at hplacedOtherwise
    exact ih hotherwise hplacedOtherwise

end

end Bytecode.Lowering
