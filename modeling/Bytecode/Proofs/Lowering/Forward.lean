import Bytecode.Proofs.Lowering.Control

/-! Code without loops. Where no statement of a function is a loop, every jump of its code leads to an index behind its own:
    only the end of a round jumps back, and a choice jumps to its next branch or behind itself. -/

namespace Bytecode.Lowering

/-! ### Loops of a tree -/

mutual

/-- The statement neither is nor holds a loop. -/
def stmtLoopFree : Tree.Stmt → Bool
  | .declare _ | .assign _ | .call .. | .ret _ => true
  | .choose first others otherwise => branchLoopFree first && branchesLoopFree others && stmtsLoopFree otherwise
  | .loop .. | .count .. => false

def stmtsLoopFree : List Tree.Stmt → Bool
  | [] => true
  | s :: rest => stmtLoopFree s && stmtsLoopFree rest

def branchLoopFree : Tree.Branch → Bool
  | .mk _ body => stmtsLoopFree body

def branchesLoopFree : List Tree.Branch → Bool
  | [] => true
  | b :: rest => branchLoopFree b && branchesLoopFree rest

end

/-! ### Jumps of code -/

/-- The jumps of code that stands at an index lead to indices behind their own. -/
def Forward : Nat → List Instr → Prop
  | _, [] => True
  | start, i :: rest => (∀ target, i.target? = some target → start < target) ∧ Forward (start + 1) rest

namespace Forward
variable {start : Nat} {i : Instr} {code code' : List Instr}

@[simp] theorem nil (start : Nat) : Forward start [] := trivial

theorem cons_iff :
    Forward start (i :: code) ↔ (∀ target, i.target? = some target → start < target) ∧ Forward (start + 1) code :=
  Iff.rfl

theorem append_iff : Forward start (code ++ code') ↔ Forward start code ∧ Forward (start + code.length) code' := by
  induction code generalizing start with
  | nil => simp
  | cons i code ih =>
    simp only [List.cons_append, cons_iff, ih, List.length_cons, and_assoc]
    rw [show start + 1 + code.length = start + (code.length + 1) by omega]

theorem of_straight (h : Straight code) (start : Nat) : Forward start code := by
  induction code generalizing start with
  | nil => exact nil start
  | cons i code ih =>
    obtain ⟨hi, hcode⟩ := straight_cons.mp h
    refine ⟨fun target htarget => ?_, ih hcode _⟩
    rw [Instr.target?_of_straight hi] at htarget
    cases htarget

theorem get (h : Forward start code) {k : Nat} (hi : code[k]? = some i) {target : Nat}
    (htarget : i.target? = some target) : start + k < target := by
  induction code generalizing start k with
  | nil => simp at hi
  | cons j code ih =>
    cases k with
    | zero =>
      obtain rfl : j = i := by simpa using hi
      exact h.1 target htarget
    | succ k =>
      have hlt := ih h.2 (by simpa using hi)
      omega

end Forward

/-- The jumps of a branch lead behind it, if its exit does. -/
theorem forward_branch {start exit : Nat} {condition body : List Instr} (hcondition : Straight condition)
    (hbody : Forward (start + condition.length + 1) body) (hexit : start + chainLength [(condition, body)] ≤ exit) :
    Forward start (chainCode start exit [(condition, body)]) := by
  have hlength : chainLength [(condition, body)] = condition.length + body.length + 2 := by simp [chainLength]
  rw [hlength] at hexit
  simp only [chainCode, Forward.append_iff, Forward.cons_iff, List.length_append, List.length_cons, Forward.nil, and_true]
  refine ⟨⟨.of_straight hcondition start, ?_, hbody⟩, ?_⟩
  · rintro target ⟨⟩
    omega
  · rintro target ⟨⟩
    omega

/-! ### Lowering -/

theorem forwardCases (layouts : Layouts) :
    StmtCases layouts (fun _ start s code _ => stmtLoopFree s = true → Forward start code)
      (fun _ start stmts code _ => stmtsLoopFree stmts = true → Forward start code)
      (fun _ start b branch _ => branchLoopFree b = true →
        ∀ exit, start + chainLength [branch] ≤ exit → Forward start (chainCode start exit [branch]))
      (fun _ start bs branches _ => branchesLoopFree bs = true →
        ∀ exit, start + chainLength branches ≤ exit → Forward start (chainCode start exit branches)) where
  declare hinit _ := by
    rw [Forward.append_iff]
    exact ⟨.of_straight (exprCode_straight hinit) _, nofun, trivial⟩
  assign ha _ := .of_straight (assignCode_straight ha).2 _
  call hargs _ := .of_straight (straight_call hargs _) _
  choose {_ _ _ _ start _ _ _ branch branches code} _ hfirst _ hothers _ hotherwise hfree := by
    rw [stmtLoopFree, Bool.and_eq_true, Bool.and_eq_true] at hfree
    obtain ⟨⟨hfirstFree, hothersFree⟩, hotherwiseFree⟩ := hfree
    have hlength := chainLength_cons branch branches
    -- The exit may be any index behind the chain, so that the last block can lie in between.
    have hchain : ∀ exit, start + chainLength (branch :: branches) ≤ exit →
        Forward start (chainCode start exit (branch :: branches)) := by
      intro exit hexit
      rw [chainCode_cons, Forward.append_iff, length_chainCode]
      exact ⟨hfirst hfirstFree exit (by omega), hothers hothersFree exit (by omega)⟩
    rw [Forward.append_iff, Forward.append_iff, length_chainCode]
    exact ⟨⟨hchain _ (Nat.le_add_right _ _), hotherwise hotherwiseFree⟩, nofun, trivial⟩
  loop _ _ _ hfree := by cases hfree
  count _ _ _ _ _ hfree := by cases hfree
  ret he _ := by
    rw [Forward.append_iff]
    exact ⟨.of_straight (exprCode_straight he) _, nofun, trivial⟩
  none start _ _ := .nil _
  more _ hs _ hrest hfree := by
    rw [stmtsLoopFree, Bool.and_eq_true] at hfree
    rw [Forward.append_iff]
    exact ⟨hs hfree.1, hrest hfree.2⟩
  branch hcondition _ hbody hfree _ hexit := forward_branch (exprCode_straight hcondition) (hbody hfree) hexit
  noBranches _ _ _ _ _ := .nil _
  branches {_ _ _ _ _ _ branch branches} _ hb _ hrest hfree exit hexit := by
    rw [branchesLoopFree, Bool.and_eq_true] at hfree
    have hlength := chainLength_cons branch branches
    rw [chainCode_cons, Forward.append_iff, length_chainCode]
    exact ⟨hb hfree.1 exit (by omega), hrest hfree.2 exit (by omega)⟩

/-- The jumps of a function without loops lead forward. -/
theorem lowerFunction_forward {layouts : Layouts} {f : Tree.Function} {g : Function} (h : lowerFunction layouts f = .ok g)
    (hfree : stmtsLoopFree f.body = true) : Forward 0 g.code.toList := by
  obtain ⟨body, scope, hbody, rfl⟩ := lowerFunction_eq_ok h
  have hcode : Forward 0 (paramCode f.params ++ body) := by
    rw [Forward.append_iff, length_paramCode, Nat.zero_add]
    exact ⟨.of_straight (paramCode_straight f.params) 0, (forwardCases layouts).stmts hbody hfree⟩
  rcases withReturn_cases (paramCode f.params ++ body) with ⟨-, heq⟩ | ⟨-, heq⟩
  · simpa [heq] using hcode
  · rw [heq]
    exact Forward.append_iff.mpr ⟨hcode, nofun, nofun, trivial⟩

end Bytecode.Lowering
