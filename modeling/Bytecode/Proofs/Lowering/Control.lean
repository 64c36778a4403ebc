import Bytecode.Proofs.Lowering.Functions
import Bytecode.Proofs.Lowering.Placed
import Bytecode.Proofs.Machine.Effect

/-! Jumps and returns in lowered code. The code of expressions and assignments goes straight on, a jump of a statement
    leads into the code of that statement, and the code of a function ends in a return. -/

namespace Bytecode

namespace Instr

/-- The index that an instruction may jump to. -/
def target? : Instr → Option Nat
  | .jump target | .jumpUnless target => some target
  | _ => none

/-- Behind the instruction, control goes on at the next one. -/
def straight : Instr → Bool
  | .jump _ | .jumpUnless _ | .ret => false
  | _ => true

section
variable {i : Instr} {pc pc' : Nat}

theorem target?_of_straight (h : i.straight = true) : i.target? = none := by
  cases i <;> first | rfl | cases h

theorem successors_of_straight (h : i.straight = true) (pc : Nat) : i.successors pc = [pc + 1] := by
  cases i <;> first | rfl | cases h

/-- Control goes on at the next instruction, unless it returns, or where the instruction jumps to. -/
theorem next_or_target_of_mem_successors (h : pc' ∈ i.successors pc) :
    (i ≠ .ret ∧ pc' = pc + 1) ∨ i.target? = some pc' := by
  cases i <;> simp_all [successors, target?, eq_comm]

end

end Instr

namespace Lowering

/-- Code that goes straight on. -/
def Straight (code : List Instr) : Prop :=
  ∀ i ∈ code, i.straight = true

/-- Code whose jumps lead to indices between two others. -/
def JumpsWithin (low high : Nat) (code : List Instr) : Prop :=
  ∀ i ∈ code, ∀ target, i.target? = some target → low ≤ target ∧ target < high

section
variable {code code' : List Instr} {i : Instr} {low high : Nat}

@[simp] theorem straight_nil : Straight [] := nofun

@[simp] theorem straight_append : Straight (code ++ code') ↔ Straight code ∧ Straight code' :=
  List.forall_mem_append

@[simp] theorem straight_cons : Straight (i :: code) ↔ i.straight = true ∧ Straight code :=
  List.forall_mem_cons

@[simp] theorem jumpsWithin_nil : JumpsWithin low high [] := nofun

@[simp] theorem jumpsWithin_append :
    JumpsWithin low high (code ++ code') ↔ JumpsWithin low high code ∧ JumpsWithin low high code' :=
  List.forall_mem_append

@[simp] theorem jumpsWithin_cons :
    JumpsWithin low high (i :: code) ↔
      (∀ target, i.target? = some target → low ≤ target ∧ target < high) ∧ JumpsWithin low high code :=
  List.forall_mem_cons

/-- Code without jumps stays inside any bounds. -/
theorem Straight.jumpsWithin (h : Straight code) (low high : Nat) : JumpsWithin low high code := by
  intro i hi target htarget
  rw [Instr.target?_of_straight (h i hi)] at htarget
  cases htarget

/-- Jumps that stay inside bounds stay inside wider ones. -/
theorem JumpsWithin.mono {low' high' : Nat} (h : JumpsWithin low high code) (hlow : low' ≤ low) (hhigh : high ≤ high') :
    JumpsWithin low' high' code := by
  intro i hi target htarget
  obtain ⟨h₁, h₂⟩ := h i hi target htarget
  exact ⟨Nat.le_trans hlow h₁, Nat.lt_of_lt_of_le h₂ hhigh⟩

theorem Straight.getLast?_ne (h : Straight code) : code.getLast? ≠ some .ret := by
  intro hlast
  have hret := h .ret (List.mem_of_getLast? hlast)
  cases hret

end

/-! ### Expressions and assignments -/

theorem callInstr_straight (name : String) : (callInstr name).straight = true := by
  unfold callInstr builtin?
  split <;> rfl

theorem ofInstr_straight (scope : Scope) : OfInstr scope fun i => i.straight = true where
  op _ _ := rfl
  load _ := rfl
  store _ := rfl
  call := callInstr_straight

section
variable {layouts : Layouts} {scope scope' : Scope} {start : Nat} {code : List Instr}

/-- Expressions have no jumps. -/
theorem exprCode_straight {e : Tree.Expr} (h : exprCode layouts scope e = .ok code) : Straight code :=
  ((ofInstr_straight scope).exprCases layouts).expr h

theorem argsCode_straight {args : List Tree.Expr} (h : argsCode layouts scope args = .ok code) : Straight code :=
  ((ofInstr_straight scope).exprCases layouts).args h

theorem assignCode_straight {a : Tree.Assignment} (h : assignCode layouts scope a = .ok code) :
    code ≠ [] ∧ Straight code :=
  AssignCases.assign ((ofInstr_straight scope).exprCases layouts) (ofInstr_straight scope).assignCases h

theorem straight_call {args : List Tree.Expr} (h : argsCode layouts scope args = .ok code) (name : String) :
    Straight (code ++ callInstr name :: if name = "print" then [] else [.op .pop]) := by
  rw [straight_append, straight_cons]
  refine ⟨argsCode_straight h, callInstr_straight name, ?_⟩
  split <;> simp [Instr.straight]

/-! ### Statements -/

theorem length_loopCode (start : Nat) (condition body : List Instr) :
    (loopCode start condition body).length = condition.length + body.length + 3 := by
  simp [loopCode]
  omega

/-- The jumps of a loop lead to its condition or to its last instruction. -/
theorem jumpsWithin_loopCode {start : Nat} {condition body : List Instr} (hcondition : Straight condition)
    (hbody : JumpsWithin (start + condition.length + 1) (start + condition.length + 1 + body.length) body) :
    JumpsWithin start (start + (loopCode start condition body).length) (loopCode start condition body) := by
  rw [length_loopCode]
  unfold loopCode
  simp only [jumpsWithin_append, jumpsWithin_cons, jumpsWithin_nil, and_true]
  refine ⟨⟨hcondition.jumpsWithin _ _, ?_, hbody.mono (by omega) (by omega)⟩, ?_, nofun⟩
  · rintro target ⟨⟩
    omega
  · rintro target ⟨⟩
    omega

theorem chainCode_cons (start exit : Nat) (branch : List Instr × List Instr) (branches : List (List Instr × List Instr)) :
    chainCode start exit (branch :: branches) =
      chainCode start exit [branch] ++ chainCode (start + chainLength [branch]) exit branches := by
  simp [chainCode, chainLength, Nat.add_assoc]

theorem chainLength_cons (branch : List Instr × List Instr) (branches : List (List Instr × List Instr)) :
    chainLength (branch :: branches) = chainLength [branch] + chainLength branches := by
  simp [chainLength]

/-- The length of a chain does not depend on where it stands. -/
theorem length_chainCode (start exit : Nat) (branches : List (List Instr × List Instr)) :
    (chainCode start exit branches).length = chainLength branches := by
  induction branches generalizing start with
  | nil => rfl
  | cons branch rest ih =>
    rw [chainCode_cons, List.length_append, ih, chainLength_cons]
    simp [chainCode, chainLength]
    omega

theorem chainCode_append (start exit : Nat) (chain more : List (List Instr × List Instr)) :
    chainCode start exit (chain ++ more) =
      chainCode start exit chain ++ chainCode (start + chainLength chain) exit more := by
  induction chain generalizing start with
  | nil => rfl
  | cons branch rest ih =>
    rw [List.cons_append, chainCode_cons, ih, chainCode_cons start exit branch rest, chainLength_cons branch rest,
      List.append_assoc, Nat.add_assoc]

/-- The jumps of a branch lead behind the branch, or to the exit. -/
theorem jumpsWithin_branch {start exit high : Nat} {condition body : List Instr} (hcondition : Straight condition)
    (hbody : JumpsWithin (start + condition.length + 1) (start + condition.length + 1 + body.length) body)
    (hexit : start + chainLength [(condition, body)] ≤ exit) (hhigh : exit < high) :
    JumpsWithin start high (chainCode start exit [(condition, body)]) := by
  have hlength : chainLength [(condition, body)] = condition.length + body.length + 2 := by simp [chainLength]
  rw [hlength] at hexit
  simp only [chainCode, jumpsWithin_append, jumpsWithin_cons, jumpsWithin_nil, and_true]
  refine ⟨⟨hcondition.jumpsWithin _ _, ?_, hbody.mono (by omega) (by omega)⟩, ?_⟩
  · rintro target ⟨⟩
    omega
  · rintro target ⟨⟩
    omega

/-- A jump of a statement leads into the code of that statement. -/
theorem jumpCases (layouts : Layouts) :
    StmtCases layouts (fun _ start _ code _ => JumpsWithin start (start + code.length) code)
      (fun _ start _ code _ => JumpsWithin start (start + code.length) code)
      (fun _ start _ branch _ => ∀ exit high, start + chainLength [branch] ≤ exit → exit < high →
        JumpsWithin start high (chainCode start exit [branch]))
      (fun _ start _ branches _ => ∀ exit high, start + chainLength branches ≤ exit → exit < high →
        JumpsWithin start high (chainCode start exit branches)) where
  declare hinit := by
    rw [jumpsWithin_append]
    exact ⟨(exprCode_straight hinit).jumpsWithin _ _, by simp [Instr.target?]⟩
  assign ha := (assignCode_straight ha).2.jumpsWithin _ _
  call hargs := (straight_call hargs _).jumpsWithin _ _
  choose {_ _ _ _ start _ _ _ branch branches code} _ hfirst _ hothers _ hotherwise := by
    have hlength := chainLength_cons branch branches
    simp only [List.length_append, length_chainCode, List.length_singleton]
    rw [jumpsWithin_append, jumpsWithin_append, chainCode_cons, jumpsWithin_append]
    refine ⟨⟨⟨hfirst _ _ ?_ ?_, (hothers _ _ ?_ ?_).mono (Nat.le_add_right _ _) (Nat.le_refl _)⟩,
      hotherwise.mono (Nat.le_add_right _ _) ?_⟩, by simp [Instr.target?]⟩ <;> omega
  loop hcondition _ hbody := jumpsWithin_loopCode (exprCode_straight hcondition) hbody
  count {_ _ start _ _ _ _ icode code code' scode} hinit hcondition _ hbody hstep := by
    -- A round is the body with the step behind it.
    have hround : JumpsWithin (start + (icode.length + 1) + code.length + 1)
        (start + (icode.length + 1) + code.length + 1 + (code' ++ scode).length) (code' ++ scode) := by
      rw [jumpsWithin_append, List.length_append]
      exact ⟨hbody.mono (Nat.le_refl _) (by omega), (assignCode_straight hstep).2.jumpsWithin _ _⟩
    have hloop := jumpsWithin_loopCode (exprCode_straight hcondition) hround
    simp only [jumpsWithin_append, List.length_append, List.length_singleton]
    exact ⟨⟨(exprCode_straight hinit).jumpsWithin _ _, by simp [Instr.target?]⟩, hloop.mono (by omega) (by omega)⟩
  ret he := by
    rw [jumpsWithin_append]
    exact ⟨(exprCode_straight he).jumpsWithin _ _, by simp [Instr.target?]⟩
  none _ _ := jumpsWithin_nil
  more _ hs _ hrest := by
    rw [jumpsWithin_append, List.length_append]
    exact ⟨hs.mono (Nat.le_refl _) (by omega), hrest.mono (by omega) (by omega)⟩
  branch hcondition _ hbody _ _ hexit hhigh :=
    jumpsWithin_branch (exprCode_straight hcondition) hbody hexit hhigh
  noBranches _ _ _ _ _ _ := jumpsWithin_nil
  branches {_ _ _ _ _ _ branch branches} _ hb _ hrest exit high hexit hhigh := by
    have hlength := chainLength_cons branch branches
    rw [chainCode_cons, jumpsWithin_append]
    exact ⟨hb _ _ (by omega) hhigh, (hrest _ _ (by omega) hhigh).mono (Nat.le_add_right _ _) (Nat.le_refl _)⟩

/-- A statement is never left by a jump but at its end. -/
theorem stmtCode_jumpsWithin {s : Tree.Stmt} (h : stmtCode layouts scope start s = .ok (code, scope')) :
    JumpsWithin start (start + code.length) code :=
  (jumpCases layouts).stmt h

theorem stmtsCode_jumpsWithin {stmts : List Tree.Stmt} (h : stmtsCode layouts scope start stmts = .ok (code, scope')) :
    JumpsWithin start (start + code.length) code :=
  (jumpCases layouts).stmts h

theorem getLast?_loopCode (start : Nat) (condition body : List Instr) :
    (loopCode start condition body).getLast? = some (.op .nop) := by
  unfold loopCode
  rw [List.getLast?_append]
  rfl

/-- A statement has code, and its code ends in a return only if the statement is one. -/
theorem lastCases (layouts : Layouts) :
    StmtCases layouts (fun _ _ s code _ => code ≠ [] ∧ (code.getLast? = some .ret → ∃ e, s = .ret e))
      (fun _ _ stmts code _ => (code = [] → stmts = []) ∧
        (code.getLast? = some .ret → ∃ e, stmts.getLast? = some (.ret e)))
      (fun _ _ _ _ _ => True) (fun _ _ _ _ _ => True) where
  declare _ := by simp
  assign ha := ⟨(assignCode_straight ha).1, fun h => absurd h (assignCode_straight ha).2.getLast?_ne⟩
  call {_ _ name _ code} hargs := by
    refine ⟨by simp, fun h => ?_⟩
    by_cases hname : name = "print"
    · simp [hname, callInstr, builtin?] at h
    · simp [hname] at h
  choose _ _ _ _ _ _ := by simp
  loop _ _ _ := ⟨by simp [loopCode], fun h => by simp [getLast?_loopCode] at h⟩
  count _ _ _ _ _ := by
    refine ⟨by simp, fun h => ?_⟩
    rw [List.getLast?_append, getLast?_loopCode] at h
    cases h
  ret {_ _ e _} _ := ⟨by simp, fun _ => ⟨e, rfl⟩⟩
  none _ _ := by simp
  more {_ _ _ _ s rest code code'} _ hs _ hrest := by
    refine ⟨fun h => absurd (List.append_eq_nil_iff.mp h).1 hs.1, fun h => ?_⟩
    -- No statement has empty code, so the last instruction is that of the last statement.
    cases code' with
    | nil =>
      obtain rfl := hrest.1 rfl
      rw [List.append_nil] at h
      obtain ⟨e, rfl⟩ := hs.2 h
      exact ⟨e, rfl⟩
    | cons i code' =>
      rw [List.getLast?_append_of_ne_nil _ (List.cons_ne_nil _ _)] at h
      obtain ⟨e, he⟩ := hrest.2 h
      exact ⟨e, by simp [List.getLast?_cons, he]⟩
  branch _ _ _ := trivial
  noBranches _ _ := trivial
  branches _ _ _ _ := trivial

/-- Code that ends in a return comes from a return. -/
theorem stmtsCode_last {stmts : List Tree.Stmt} (h : stmtsCode layouts scope start stmts = .ok (code, scope'))
    (hlast : code.getLast? = some .ret) : ∃ e, stmts.getLast? = some (.ret e) :=
  ((lastCases layouts).stmts h).2 hlast

end

/-! ### Functions -/

/-- Code that ends in a return stays as it is; other code gets a return of null behind it. -/
theorem withReturn_cases (code : List Instr) :
    (code.getLast? = some .ret ∧ withReturn code = code) ∨
      (code.getLast? ≠ some .ret ∧ withReturn code = code ++ [.op (.push .null), .ret]) := by
  unfold withReturn
  split
  · rename_i h
    exact Or.inl ⟨h, rfl⟩
  · rename_i h
    exact Or.inr ⟨fun hlast => h hlast, rfl⟩

/-- Every function ends in a return. -/
theorem withReturn_getLast? (code : List Instr) : (withReturn code).getLast? = some .ret := by
  rcases withReturn_cases code with ⟨hlast, heq⟩ | ⟨-, heq⟩
  · rw [heq, hlast]
  · rw [heq, List.getLast?_append]
    rfl

theorem paramCode_straight (params : List Tree.Variable) : Straight (paramCode params) := by
  intro i hi
  obtain ⟨slot, -, rfl⟩ := List.mem_map.mp hi
  rfl

@[simp] theorem length_paramCode (params : List Tree.Variable) : (paramCode params).length = params.length := by
  simp [paramCode]

/-- The code of a function starts with that of its parameters, and its body stands behind it. -/
theorem placed_code (params : List Tree.Variable) (body : List Instr) :
    Placed (withReturn (paramCode params ++ body)) 0 (paramCode params) ∧
      Placed (withReturn (paramCode params ++ body)) params.length body := by
  have hcode : Placed (withReturn (paramCode params ++ body)) 0 (paramCode params ++ body) := by
    rcases withReturn_cases (paramCode params ++ body) with ⟨-, heq⟩ | ⟨-, heq⟩
    · rw [heq]
      simpa using Placed.middle [] (paramCode params ++ body) []
    · rw [heq]
      simpa using Placed.middle [] (paramCode params ++ body) [.op (.push .null), .ret]
  have hright := hcode.right
  rw [length_paramCode, Nat.zero_add] at hright
  exact ⟨hcode.left, hright⟩

end Lowering
end Bytecode
