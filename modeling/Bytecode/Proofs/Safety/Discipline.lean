import Bytecode.Proofs.Evaluation.Program
import Bytecode.Proofs.Lowering.Occurs
import Bytecode.Proofs.Lowering.Scope
import Bytecode.Proofs.Machine.Effect

/-! Disciplines that lowered code follows. A discipline labels the indices of code, says which instructions a label allows
    and which labels an instruction leads to; code follows it if its indices can be labelled. Whatever the discipline is
    about, it is enough to look at expressions, assignments and single instructions: statements put labels together in one
    way (`Follows.stmtCases`). -/

namespace Bytecode.Safety
open Evaluation Lowering

/-- A discipline. A label is weaker than another one if it promises no more. -/
structure Discipline (L : Type) where
  allowed : L → Instr → Prop
  flow : L → Instr → L → Prop
  weaker : L → L → Prop
  refl (l : L) : weaker l l
  trans {l m n : L} : weaker l m → weaker m n → weaker l n
  flow_weaker {l m n : L} {i : Instr} : flow l i m → weaker m n → flow l i n

namespace Discipline
variable {L : Type} (A : Discipline L)

/-- The label of an index promises no more than a label. -/
def Known (whole : List L) (index : Nat) (l : L) : Prop :=
  ∃ m, A.weaker l m ∧ whole[index]? = some m

/-- The instruction at an index is allowed, and wherever control goes from there the label is one it leads to. -/
def Sound (whole : List L) (pc : Nat) (i : Instr) : Prop :=
  ∃ l, whole[pc]? = some l ∧ A.allowed l i ∧ ∀ pc' ∈ i.successors pc, ∃ m, whole[pc']? = some m ∧ A.flow l i m

/-- The instructions of code at an index follow the discipline under a labelling. -/
def Covers (whole : List L) : Nat → List Instr → Prop
  | _, [] => True
  | pc, i :: rest => A.Sound whole pc i ∧ Covers whole (pc + 1) rest

/-- Code at an index can be labelled from one label to another one, so that some indices are marked and the code follows
the discipline wherever what is presumed of the labelling holds. -/
def Fits (presumed : List L → Prop) (start : Nat) (l : L) (code : List Instr) (l' : L) (marks : List L → Prop) : Prop :=
  ∃ ls : List L, ls.length = code.length ∧ ∀ whole m', A.weaker l' m' → Placed whole start (ls ++ [m']) →
    A.Known whole start l ∧ marks whole ∧ (presumed whole → A.Covers whole start code)

variable {A} {whole : List L} {start : Nat} {l l' l₁ : L} {code code' : List Instr} {i : Instr}
  {presumed presumed' marks marks' : List L → Prop}

theorem covers_append : A.Covers whole start (code ++ code') ↔
    A.Covers whole start code ∧ A.Covers whole (start + code.length) code' := by
  induction code generalizing start with
  | nil => simp [Covers]
  | cons i code ih =>
    simp only [List.cons_append, Covers, ih, List.length_cons, and_assoc]
    rw [show start + 1 + code.length = start + (code.length + 1) by omega]

theorem Covers.sound (h : A.Covers whole start code) {j : Nat} (hj : code[j]? = some i) : A.Sound whole (start + j) i := by
  induction code generalizing start j with
  | nil => cases hj
  | cons i' code ih =>
    cases j with
    | zero =>
      obtain rfl := Option.some.inj hj
      exact h.1
    | succ j =>
      rw [show start + (j + 1) = start + 1 + j by omega]
      exact ih h.2 hj

namespace Fits

theorem nil : A.Fits presumed start l [] l (fun _ => True) :=
  ⟨[], rfl, fun _ m' hm' hplaced => ⟨⟨m', hm', hplaced.head⟩, trivial, fun _ => trivial⟩⟩

/-- Code behind code; the index between them is marked. -/
theorem append (h : A.Fits presumed start l code l₁ marks) (h' : A.Fits presumed (start + code.length) l₁ code' l' marks') :
    A.Fits presumed start l (code ++ code') l'
      (fun whole => marks whole ∧ A.Known whole (start + code.length) l₁ ∧ marks' whole) := by
  obtain ⟨ls, hlength, hls⟩ := h
  obtain ⟨ls', hlength', hls'⟩ := h'
  refine ⟨ls ++ ls', by rw [List.length_append, List.length_append, hlength, hlength'], fun whole m' hm' hplaced => ?_⟩
  rw [List.append_assoc] at hplaced
  have hright := hplaced.right
  rw [hlength] at hright
  obtain ⟨⟨m, hm, hget⟩, hmarks', hcovers'⟩ := hls' whole m' hm' hright
  have hleft : Placed whole start (ls ++ [m]) := Placed.append_iff.mpr ⟨hplaced.left, by rw [hlength]; exact hget, trivial⟩
  obtain ⟨hknown, hmarks, hcovers⟩ := hls whole m hm hleft
  exact ⟨hknown, ⟨hmarks, ⟨m, hm, hget⟩, hmarks'⟩, fun hp => covers_append.mpr ⟨hcovers hp, hcovers' hp⟩⟩

/-- What is presumed may come from the ends of the code and from the marks. -/
theorem imp (h : A.Fits presumed start l code l' marks)
    (hmarks : ∀ whole, A.Known whole start l → A.Known whole (start + code.length) l' → marks whole → marks' whole)
    (hpresumed : ∀ whole, A.Known whole start l → A.Known whole (start + code.length) l' → marks whole →
      presumed' whole → presumed whole) : A.Fits presumed' start l code l' marks' := by
  obtain ⟨ls, hlength, hls⟩ := h
  refine ⟨ls, hlength, fun whole m' hm' hplaced => ?_⟩
  obtain ⟨hknown, hm, hcovers⟩ := hls whole m' hm' hplaced
  have hend : A.Known whole (start + code.length) l' := ⟨m', hm', by rw [← hlength]; exact hplaced.right.head⟩
  exact ⟨hknown, hmarks whole hknown hend hm, fun hp => hcovers (hpresumed whole hknown hend hm hp)⟩

theorem mark (h : A.Fits presumed start l code l' marks)
    (hmarks : ∀ whole, A.Known whole start l → marks whole → marks' whole) : A.Fits presumed start l code l' marks' :=
  h.imp (fun whole hstart _ hm => hmarks whole hstart hm) fun _ _ _ _ hp => hp

theorem presume (h : A.Fits (fun _ => True) start l code l' marks) : A.Fits presumed start l code l' marks :=
  h.imp (fun _ _ _ hm => hm) fun _ _ _ _ _ => trivial

theorem unmark (h : A.Fits presumed start l code l' marks) : A.Fits presumed start l code l' (fun _ => True) :=
  h.mark fun _ _ _ => trivial

theorem weaken (h : A.Fits presumed start l code l₁ marks) (hl : A.weaker l₁ l') :
    A.Fits presumed start l code l' marks := by
  obtain ⟨ls, hlength, hls⟩ := h
  exact ⟨ls, hlength, fun whole m' hm' hplaced => hls whole m' (A.trans hl hm') hplaced⟩

/-- A single instruction. Where it may go other than behind itself, the labels are presumed. -/
theorem single (hallowed : A.allowed l i)
    (hnext : ∀ whole, presumed whole → ∀ pc' ∈ i.successors start,
      (pc' = start + 1 ∧ A.flow l i l') ∨ ∃ m, whole[pc']? = some m ∧ A.flow l i m) :
    A.Fits presumed start l [i] l' (fun _ => True) := by
  refine ⟨[l], rfl, fun whole m' hm' hplaced => ?_⟩
  have hstart : whole[start]? = some l := hplaced.head
  refine ⟨⟨l, A.refl l, hstart⟩, trivial, fun hp => ⟨⟨l, hstart, hallowed, fun pc' hpc' => ?_⟩, trivial⟩⟩
  rcases hnext whole hp pc' hpc' with ⟨rfl, hflow⟩ | hknown
  · exact ⟨m', hplaced.tail.head, A.flow_weaker hflow hm'⟩
  · exact hknown

theorem straight (hi : i.straight = true) (hallowed : A.allowed l i) (hflow : A.flow l i l') :
    A.Fits presumed start l [i] l' (fun _ => True) := by
  refine single hallowed fun whole _ pc' hpc' => Or.inl ⟨?_, hflow⟩
  rw [Instr.successors_of_straight hi] at hpc'
  exact List.mem_singleton.mp hpc'

theorem ret (hallowed : A.allowed l .ret) : A.Fits presumed start l [.ret] l' (fun _ => True) :=
  single hallowed fun _ _ _ hpc' => by cases hpc'

theorem jump {target : Nat} (hallowed : A.allowed l (.jump target)) (hflow : A.flow l (.jump target) l₁)
    (htarget : ∀ whole, presumed whole → A.Known whole target l₁) :
    A.Fits presumed start l [.jump target] l' (fun _ => True) := by
  refine single hallowed fun whole hp pc' hpc' => Or.inr ?_
  obtain rfl := List.mem_singleton.mp hpc'
  obtain ⟨m, hm, hget⟩ := htarget whole hp
  exact ⟨m, hget, A.flow_weaker hflow hm⟩

theorem jumpUnless {target : Nat} (hallowed : A.allowed l (.jumpUnless target)) (hflow : A.flow l (.jumpUnless target) l')
    (htarget : ∀ whole, presumed whole → A.Known whole target l') :
    A.Fits presumed start l [.jumpUnless target] l' (fun _ => True) := by
  refine single hallowed fun whole hp pc' hpc' => ?_
  rcases List.mem_cons.mp hpc' with rfl | hpc'
  · exact Or.inl ⟨rfl, hflow⟩
  · obtain rfl := List.mem_singleton.mp hpc'
    obtain ⟨m, hm, hget⟩ := htarget whole hp
    exact Or.inr ⟨m, hget, A.flow_weaker hflow hm⟩

/-- A branch before other branches: if its condition fails, control goes on at the next one. -/
theorem chain {branch : List Instr × List Instr} {branches : List (List Instr × List Instr)} {exit : Nat}
    (h : A.Fits (fun whole => A.Known whole (start + chainLength [branch]) l ∧ A.Known whole exit l) start l
      (chainCode start exit [branch]) l marks)
    (h' : A.Fits (fun whole => A.Known whole (start + chainLength [branch] + chainLength branches) l ∧ A.Known whole exit l)
      (start + chainLength [branch]) l (chainCode (start + chainLength [branch]) exit branches) l marks') :
    A.Fits (fun whole => A.Known whole (start + chainLength (branch :: branches)) l ∧ A.Known whole exit l) start l
      (chainCode start exit (branch :: branches)) l (fun whole => marks whole ∧ marks' whole) := by
  let between (whole : List L) := A.Known whole (start + chainLength [branch]) l
  let ends (whole : List L) := A.Known whole (start + chainLength (branch :: branches)) l ∧ A.Known whole exit l
  have hlength : start + chainLength [branch] + chainLength branches = start + chainLength (branch :: branches) := by
    rw [chainLength_cons branch branches, Nat.add_assoc]
  rw [hlength] at h'
  have hfirst : A.Fits (fun whole => between whole ∧ ends whole) start l (chainCode start exit [branch]) l marks :=
    h.imp (fun _ _ _ hm => hm) fun _ _ _ _ hp => ⟨hp.1, hp.2.2⟩
  have hrest : A.Fits (fun whole => between whole ∧ ends whole) (start + (chainCode start exit [branch]).length) l
      (chainCode (start + chainLength [branch]) exit branches) l marks' := by
    rw [length_chainCode]
    exact h'.imp (fun _ _ _ hm => hm) fun _ _ _ _ hp => hp.2
  have hparts := hfirst.append hrest
  rw [length_chainCode] at hparts
  rw [chainCode_cons]
  exact hparts.imp (fun _ _ _ hm => ⟨hm.1, hm.2.2⟩) fun _ _ _ hm hp => ⟨hm.2.1, hp⟩

/-- Branches, what happens otherwise, and the exit, where all of them come together. -/
theorem choose {branches : List (List Instr × List Instr)}
    (h : A.Fits (fun whole => A.Known whole (start + chainLength branches) l ∧
        A.Known whole (start + chainLength branches + code.length) l) start l
      (chainCode start (start + chainLength branches + code.length) branches) l marks)
    (h' : A.Fits (fun _ => True) (start + chainLength branches) l code l marks')
    (hnop : A.allowed l (.op .nop) ∧ A.flow l (.op .nop) l) :
    A.Fits (fun _ => True) start l
      (chainCode start (start + chainLength branches + code.length) branches ++ code ++ [.op .nop]) l
      (fun whole => marks whole ∧ marks' whole) := by
  let exit := start + chainLength branches + code.length
  have hlength : start + (chainCode start exit branches).length = start + chainLength branches := by rw [length_chainCode]
  have hexit : start + (chainCode start exit branches ++ code).length = exit := by
    rw [List.length_append, ← Nat.add_assoc, hlength]
  have hparts := (h.append (by rw [hlength]; exact h'.presume)).append (.straight rfl hnop.1 hnop.2)
  rw [hlength, hexit] at hparts
  -- Both places that the branches presume are marked: the start of what happens otherwise, and the exit.
  exact hparts.imp (fun _ _ _ hm => ⟨hm.1.1, hm.1.2.2⟩) fun _ _ _ hm _ => ⟨hm.1.2.1, hm.2.1⟩

/-- A labelling for the code alone. -/
theorem exists_whole (h : A.Fits (fun _ => True) start l code l' marks) :
    ∃ whole, A.Known whole start l ∧ A.Known whole (start + code.length) l' ∧ marks whole ∧ A.Covers whole start code := by
  obtain ⟨ls, hlength, hls⟩ := h
  have hplaced := Placed.middle (List.replicate start l) (ls ++ [l']) []
  rw [List.length_replicate] at hplaced
  obtain ⟨hstart, hmarks, hcovers⟩ := hls _ l' (A.refl l') hplaced
  have hend := hplaced.right.head
  rw [hlength] at hend
  exact ⟨_, hstart, ⟨l', A.refl l', hend⟩, hmarks, hcovers trivial⟩

end Fits
end Discipline

/-- A labelling under which the code of a function follows a discipline, with a label for its first index. -/
structure Labelled {L : Type} (A : Discipline L) (l : L) (g : Function) (whole : List L) : Prop where
  start : A.Known whole 0 l
  covers : A.Covers whole 0 g.code.toList

theorem Labelled.sound {L : Type} {A : Discipline L} {l : L} {g : Function} {whole : List L}
    (h : Labelled A l g whole) {pc : Nat} {i : Instr} (hi : g.code[pc]? = some i) : A.Sound whole pc i := by
  rw [← Array.getElem?_toList] at hi
  have hsound := h.covers.sound hi
  rwa [Nat.zero_add] at hsound

/-! ### Statements -/

section
variable {L : Type} (A : Discipline L) (layouts : Layouts) (p : Tree.Program) (wanted : Prop) (initial : Nat → L)
  (entry value : Scope → L)

/-- A statement without statements inside. -/
def Atomic : Tree.Stmt → Prop
  | .choose .. | .loop .. | .count .. => False
  | _ => True

/-- A statement starts at an index with the label of its scope, and if it is a loop, so does each of its rounds. -/
structure Marked (scope : Scope) (start : Nat) (s : Tree.Stmt) (whole : List L) : Prop where
  first : A.Known whole start (entry scope)
  head : ∀ head ∈ loopHead? layouts scope start s, A.Known whole head.2 (entry head.1)

/-- Each statement that occurs in statements is marked. -/
def StmtMarks (scope : Scope) (start : Nat) (stmts : List Tree.Stmt) (whole : List L) : Prop :=
  ∀ scope' start' s, StmtAt layouts scope start stmts scope' start' s → Marked A layouts entry scope' start' s whole

/-- Each statement that occurs in the bodies of branches is marked. -/
def BranchMarks (scope : Scope) (start : Nat) (bs : List Tree.Branch) (whole : List L) : Prop :=
  ∀ scope' start' condition body code, BranchAt layouts scope start bs scope' start' (.mk condition body) →
    exprCode layouts scope' condition = .ok code →
    StmtMarks A layouts entry scope'.enter (start' + code.length + 1) body whole

/-- Expressions, assignments and single instructions follow a discipline. There is a label for the start of a function, by
the number of its parameters, one for the start of a statement and one for the index behind an expression, both by the
variables in scope; calls have the right number of arguments if that is wanted. -/
structure Follows : Prop where
  same {scope scope' : Scope} (h : scope'.blocks = scope.blocks) : entry scope' = entry scope
  enter (scope : Scope) : entry scope.enter = entry scope
  leave (scope : Scope) : A.weaker (entry scope) (entry scope.leave)
  expr {scope : Scope} {e : Tree.Expr} {code : List Instr} (hcode : exprCode layouts scope e = .ok code)
    (hcalls : wanted → exprCalls p e = true) (start : Nat) :
    A.Fits (fun _ => True) start (entry scope) code (value scope) (fun _ => True)
  assign {scope : Scope} {a : Tree.Assignment} {code : List Instr} (hcode : assignCode layouts scope a = .ok code)
    (hcalls : wanted → assignCalls p a = true) (start : Nat) :
    A.Fits (fun _ => True) start (entry scope) code (entry scope) (fun _ => True)
  call {scope : Scope} {name : String} {args : List Tree.Expr} {code : List Instr}
    (hcode : argsCode layouts scope args = .ok code)
    (hcalls : wanted → rightArity p name args = true ∧ argsCalls p args = true) (start : Nat) :
    A.Fits (fun _ => True) start (entry scope) (code ++ callInstr name :: if name = "print" then [] else [.op .pop])
      (entry scope) (fun _ => True)
  store (scope : Scope) (name : String) : A.allowed (value scope) (.store scope.next) ∧
    A.flow (value scope) (.store scope.next) (entry (scope.declare name))
  test (scope : Scope) (target : Nat) : A.allowed (value scope) (.jumpUnless target) ∧
    A.flow (value scope) (.jumpUnless target) (entry scope)
  jump (scope : Scope) (target : Nat) : A.allowed (entry scope) (.jump target) ∧
    A.flow (entry scope) (.jump target) (entry scope)
  nop (scope : Scope) : A.allowed (entry scope) (.op .nop) ∧ A.flow (entry scope) (.op .nop) (entry scope)
  ret (scope : Scope) : A.allowed (value scope) .ret
  null (scope : Scope) : A.allowed (entry scope) (.op (.push .null)) ∧
    A.flow (entry scope) (.op (.push .null)) (value scope)
  params (params : List Tree.Variable) :
    A.Fits (fun _ => True) 0 (initial params.length) (paramCode params) (entry (paramScope params)) (fun _ => True)

end

section
variable {L : Type} {A : Discipline L} {layouts : Layouts} {p : Tree.Program} {wanted : Prop} {initial : Nat → L}
  {entry value : Scope → L} {scope scope₁ : Scope} {start : Nat} {whole : List L}

theorem stmtMarks_atomic {s : Tree.Stmt} (hs : Atomic s) (hstart : A.Known whole start (entry scope)) :
    StmtMarks A layouts entry scope start [s] whole := by
  intro scope' start' s' h
  cases h with
  | here =>
    refine ⟨hstart, fun head hhead => ?_⟩
    cases s <;> cases hs <;> cases hhead
  | later _ h => cases h
  | loop => cases hs
  | count => cases hs
  | branch => cases hs
  | otherwise => cases hs

theorem stmtMarks_loop {condition : Tree.Expr} {body : List Tree.Stmt} {code : List Instr}
    (hcode : exprCode layouts scope condition = .ok code) (hstart : A.Known whole start (entry scope))
    (hbody : StmtMarks A layouts entry scope.enter (start + code.length + 1) body whole) :
    StmtMarks A layouts entry scope start [.loop condition body] whole := by
  intro scope' start' s' h
  cases h with
  | here =>
    refine ⟨hstart, fun head hhead => ?_⟩
    obtain rfl := Option.some.inj hhead
    exact hstart
  | later _ h => cases h
  | loop hcode' h =>
    obtain rfl := Except.ok.inj (hcode.symm.trans hcode')
    exact hbody _ _ _ h

theorem stmtMarks_count {init : Tree.Declaration} {condition : Tree.Expr} {step : Tree.Assignment} {body : List Tree.Stmt}
    {icode code : List Instr} (hinit : exprCode layouts scope.enter init.init = .ok icode)
    (hcode : exprCode layouts (scope.enter.declare init.var.name) condition = .ok code)
    (hstart : A.Known whole start (entry scope))
    (hhead : A.Known whole (start + (icode.length + 1)) (entry (scope.enter.declare init.var.name)))
    (hbody : StmtMarks A layouts entry (scope.enter.declare init.var.name).enter
      (start + (icode.length + 1) + code.length + 1) body whole) :
    StmtMarks A layouts entry scope start [.count init condition step body] whole := by
  intro scope' start' s' h
  cases h with
  | here =>
    refine ⟨hstart, fun head hhead' => ?_⟩
    rw [loopHead?, hinit] at hhead'
    obtain rfl := Option.some.inj hhead'
    exact hhead
  | later _ h => cases h
  | count hinit' hcode' h =>
    obtain rfl := Except.ok.inj (hinit.symm.trans hinit')
    obtain rfl := Except.ok.inj (hcode.symm.trans hcode')
    exact hbody _ _ _ h

theorem stmtMarks_choose {first : Tree.Branch} {others : List Tree.Branch} {otherwise : List Tree.Stmt}
    {branches : List (List Instr × List Instr)}
    (hcode : branchesCode layouts scope start (first :: others) = .ok (branches, scope₁))
    (hstart : A.Known whole start (entry scope)) (hbranches : BranchMarks A layouts entry scope start (first :: others) whole)
    (hotherwise : StmtMarks A layouts entry scope₁.enter (start + chainLength branches) otherwise whole) :
    StmtMarks A layouts entry scope start [.choose first others otherwise] whole := by
  intro scope' start' s' h
  cases h with
  | here => exact ⟨hstart, nofun⟩
  | later _ h => cases h
  | branch hbranch hcondition h => exact hbranches _ _ _ _ _ hbranch hcondition _ _ _ h
  | otherwise hcode' h =>
    obtain ⟨rfl, rfl⟩ := Prod.mk.inj (Except.ok.inj (hcode.symm.trans hcode'))
    exact hotherwise _ _ _ h

theorem stmtMarks_cons {s : Tree.Stmt} {rest : List Tree.Stmt} {code : List Instr}
    (hcode : stmtCode layouts scope start s = .ok (code, scope₁))
    (hs : StmtMarks A layouts entry scope start [s] whole)
    (hrest : StmtMarks A layouts entry scope₁ (start + code.length) rest whole) :
    StmtMarks A layouts entry scope start (s :: rest) whole := by
  intro scope' start' s' h
  cases h with
  | here => exact hs _ _ _ .here
  | later hcode' h =>
    obtain ⟨rfl, rfl⟩ := Prod.mk.inj (Except.ok.inj (hcode.symm.trans hcode'))
    exact hrest _ _ _ h
  | loop hcondition h => exact hs _ _ _ (.loop hcondition h)
  | count hinit hcondition h => exact hs _ _ _ (.count hinit hcondition h)
  | branch hbranch hcondition h => exact hs _ _ _ (.branch hbranch hcondition h)
  | otherwise hbranches h => exact hs _ _ _ (.otherwise hbranches h)

theorem branchMarks_cons {b : Tree.Branch} {rest : List Tree.Branch} {branch : List Instr × List Instr}
    (hcode : branchCode layouts scope start b = .ok (branch, scope₁))
    (hb : BranchMarks A layouts entry scope start [b] whole)
    (hrest : BranchMarks A layouts entry scope₁ (start + chainLength [branch]) rest whole) :
    BranchMarks A layouts entry scope start (b :: rest) whole := by
  intro scope' start' condition body code h hcondition
  cases h with
  | here => exact hb _ _ _ _ _ .here hcondition
  | later hcode' h =>
    obtain ⟨rfl, rfl⟩ := Prod.mk.inj (Except.ok.inj (hcode.symm.trans hcode'))
    exact hrest _ _ _ _ _ h hcondition

namespace Follows

theorem condition (h : Follows A layouts p wanted initial entry value) {presumed : List L → Prop} {e : Tree.Expr}
    {code : List Instr} {target : Nat} (hcode : exprCode layouts scope e = .ok code)
    (hcalls : wanted → exprCalls p e = true) (start : Nat)
    (htarget : ∀ whole, presumed whole → A.Known whole target (entry scope)) :
    A.Fits presumed start (entry scope) (code ++ [.jumpUnless target]) (entry scope) (fun _ => True) :=
  ((h.expr hcode hcalls start).presume.append
    (.jumpUnless (h.test scope target).1 (h.test scope target).2 htarget)).unmark

/-- A condition, what happens if it holds, and a jump. -/
theorem round (h : Follows A layouts p wanted initial entry value) {presumed marks : List L → Prop} {e : Tree.Expr}
    {code code' : List Instr} {target exit : Nat} {l : L} (hcode : exprCode layouts scope e = .ok code)
    (hcalls : wanted → exprCalls p e = true)
    (hbody : A.Fits (fun _ => True) (start + code.length + 1) (entry scope) code' (entry scope) marks)
    (htarget : ∀ whole, presumed whole → A.Known whole target (entry scope))
    (hexit : ∀ whole, presumed whole → A.Known whole exit (entry scope)) :
    A.Fits presumed start (entry scope) (code ++ .jumpUnless target :: code' ++ [.jump exit]) l marks := by
  have hlength : start + (code ++ [Instr.jumpUnless target]).length = start + code.length + 1 := by
    simp [Nat.add_assoc]
  rw [← hlength] at hbody
  have hjump : A.Fits presumed (start + (code ++ [Instr.jumpUnless target] ++ code').length) (entry scope) [.jump exit] l
      (fun _ => True) := .jump (h.jump scope exit).1 (h.jump scope exit).2 hexit
  have hparts := ((h.condition hcode hcalls start htarget).append hbody.presume).append hjump
  have hmarked := hparts.mark fun _ _ hm => hm.1.2.2
  simpa using hmarked

theorem loop (h : Follows A layouts p wanted initial entry value) {marks : List L → Prop} {e : Tree.Expr}
    {code code' : List Instr} (hcode : exprCode layouts scope e = .ok code) (hcalls : wanted → exprCalls p e = true)
    (hbody : A.Fits (fun _ => True) (start + code.length + 1) (entry scope) code' (entry scope) marks) :
    A.Fits (fun _ => True) start (entry scope) (loopCode start code code') (entry scope) marks := by
  let exit := start + code.length + code'.length + 2
  -- The jump back leads to the start, and the jump out to the last instruction.
  have hround : A.Fits (fun whole => A.Known whole start (entry scope) ∧ A.Known whole exit (entry scope)) start
      (entry scope) (code ++ .jumpUnless exit :: code' ++ [.jump start]) (entry scope) marks :=
    h.round hcode hcalls hbody (fun _ hp => hp.2) (fun _ hp => hp.1)
  have hparts := hround.append (.straight rfl (h.nop scope).1 (h.nop scope).2)
  have hnop : start + (code ++ .jumpUnless exit :: code' ++ [Instr.jump start]).length = exit := by
    simp only [exit, List.length_append, List.length_cons, List.length_nil]
    omega
  rw [hnop] at hparts
  have hcodes : loopCode start code code' = code ++ .jumpUnless exit :: code' ++ [.jump start] ++ [.op .nop] := by
    simp [loopCode, exit]
  rw [hcodes]
  exact hparts.imp (fun _ _ _ hm => hm.1) fun _ hstart _ hm _ => ⟨hstart, hm.2.1⟩

/-- Statements follow a discipline if expressions, assignments and single instructions do. -/
theorem stmtCases (h : Follows A layouts p wanted initial entry value) :
    StmtCases layouts
      (fun scope start s code scope' => (wanted → stmtCalls p s = true) →
        A.Fits (fun _ => True) start (entry scope) code (entry scope') (StmtMarks A layouts entry scope start [s]))
      (fun scope start stmts code scope' => (wanted → stmtsCalls p stmts = true) →
        A.Fits (fun _ => True) start (entry scope) code (entry scope') (StmtMarks A layouts entry scope start stmts))
      (fun scope start b branch _ => (wanted → branchCalls p b = true) → ∀ exit,
        A.Fits (fun whole => A.Known whole (start + chainLength [branch]) (entry scope) ∧ A.Known whole exit (entry scope))
          start (entry scope) (chainCode start exit [branch]) (entry scope) (BranchMarks A layouts entry scope start [b]))
      (fun scope start bs branches _ => (wanted → branchesCalls p bs = true) → ∀ exit,
        A.Fits (fun whole => A.Known whole (start + chainLength branches) (entry scope) ∧ A.Known whole exit (entry scope))
          start (entry scope) (chainCode start exit branches) (entry scope)
          (BranchMarks A layouts entry scope start bs)) where
  declare {scope start d code} hinit hcalls := by
    have hstore := h.store scope d.var.name
    have hparts := (h.expr hinit (fun hw => by simpa [stmtCalls] using hcalls hw) start).append
      (.straight rfl hstore.1 hstore.2)
    exact hparts.mark fun _ hstart _ => stmtMarks_atomic trivial hstart
  assign {scope start a code} ha hcalls := by
    have hparts := h.assign ha (fun hw => by simpa [stmtCalls] using hcalls hw) start
    exact hparts.mark fun _ hstart _ => stmtMarks_atomic trivial hstart
  call {scope start name args code} hargs hcalls := by
    have hparts := h.call hargs (fun hw => by simpa [stmtCalls] using hcalls hw) start
    exact hparts.mark fun _ hstart _ => stmtMarks_atomic trivial hstart
  choose {scope scope₁ scope₂ scope₃ start first others otherwise branch branches code} hfirstCode hfirst hothersCode
      hothers hotherwiseCode hotherwise hcalls := by
    have hparts : wanted → (branchCalls p first = true ∧ branchesCalls p others = true) ∧ stmtsCalls p otherwise = true :=
      fun hw => by simpa [stmtCalls] using hcalls hw
    have hkeeps := branchCode_keeps hfirstCode
    have hkeeps' := hkeeps.trans (branchesCode_keeps hothersCode)
    have hblock := hkeeps'.trans (stmtsCode_grows hotherwiseCode).block
    -- The marks of a scope depend on its blocks only, and those are the same behind each branch.
    have hrest := hothers (fun hw => (hparts hw).1.2) (start + chainLength (branch :: branches) + code.length)
    rw [h.same hkeeps.blocks] at hrest
    have helse := (hotherwise fun hw => (hparts hw).2).weaken (h.leave scope₃)
    rw [h.enter, h.same hkeeps'.blocks, h.same hblock.blocks] at helse
    rw [h.same hblock.blocks]
    have hall := ((hfirst (fun hw => (hparts hw).1.1) _).chain hrest).choose helse (h.nop scope)
    exact hall.mark fun _ hstart hm => stmtMarks_choose (branchesCode_of_cons hfirstCode hothersCode) hstart
      (branchMarks_cons hfirstCode hm.1.1 hm.1.2) hm.2
  loop {scope scope₁ start condition body code code'} hcondition hbodyCode hbody hcalls := by
    have hparts : wanted → exprCalls p condition = true ∧ stmtsCalls p body = true :=
      fun hw => by simpa [stmtCalls] using hcalls hw
    have hkeeps := (stmtsCode_grows hbodyCode).block
    have hinner := (hbody fun hw => (hparts hw).2).weaken (h.leave scope₁)
    rw [h.enter, h.same hkeeps.blocks] at hinner
    rw [h.same hkeeps.blocks]
    exact (h.loop hcondition (fun hw => (hparts hw).1) hinner).mark fun _ hstart hm => stmtMarks_loop hcondition hstart hm
  count {scope scope₁ start init condition step body icode code code' scode} hinit hcondition hbodyCode hbody hstep
      hcalls := by
    have hparts : wanted → ((exprCalls p init.init = true ∧ exprCalls p condition = true) ∧ assignCalls p step = true) ∧
        stmtsCalls p body = true := fun hw => by simpa [stmtCalls] using hcalls hw
    have hkeeps := (stmtsCode_grows hbodyCode).block
    have hinner := (hbody fun hw => (hparts hw).2).weaken (h.leave scope₁)
    -- The step stands in the scope of the counter, outside of the body.
    have hround := hinner.append (h.assign hstep (fun hw => (hparts hw).1.2) _)
    rw [h.enter, h.same hkeeps.blocks] at hround
    have hloop := h.loop hcondition (fun hw => (hparts hw).1.1.2) hround
    have hstore := h.store scope.enter init.var.name
    have hdeclare := (h.expr hinit (fun hw => (hparts hw).1.1.1) start).append (.straight rfl hstore.1 hstore.2)
    have hlength : start + (icode ++ [Instr.store scope.next]).length = start + (icode.length + 1) := by simp
    have hall := (hdeclare.append (by rw [Scope.enter_next, hlength]; exact hloop)).weaken (by
      rw [← h.same hkeeps.blocks]
      exact h.leave scope₁.leave)
    rw [h.enter, Scope.enter_next, hlength] at hall
    exact hall.mark fun _ hstart hm => stmtMarks_count hinit hcondition hstart hm.2.1 hm.2.2.1
  ret {scope start e code} he hcalls := by
    have hret : A.Fits (fun _ => True) (start + code.length) (value scope) [.ret] (entry scope) (fun _ => True) :=
      .ret (h.ret scope)
    have hparts := (h.expr he (fun hw => by simpa [stmtCalls] using hcalls hw) start).append hret
    exact hparts.mark fun _ hstart _ => stmtMarks_atomic trivial hstart
  none scope start _ := by
    refine Discipline.Fits.nil.mark fun whole _ _ => ?_
    intro scope' start' s' hs'
    cases hs'
  more {scope scope₁ scope₂ start s rest code code'} hsCode hs _ hrest hcalls := by
    have hparts : wanted → stmtCalls p s = true ∧ stmtsCalls p rest = true :=
      fun hw => by simpa [stmtsCalls] using hcalls hw
    have hall := (hs fun hw => (hparts hw).1).append (hrest fun hw => (hparts hw).2)
    exact hall.mark fun _ _ hm => stmtMarks_cons hsCode hm.1 hm.2.2
  branch {scope scope₁ start condition body code code'} hcondition hbodyCode hbody hcalls exit := by
    have hparts : wanted → exprCalls p condition = true ∧ stmtsCalls p body = true :=
      fun hw => by simpa [branchCalls] using hcalls hw
    have hkeeps := (stmtsCode_grows hbodyCode).block
    have hinner := (hbody fun hw => (hparts hw).2).weaken (h.leave scope₁)
    rw [h.enter, h.same hkeeps.blocks] at hinner
    have hnext : start + code.length + code'.length + 2 = start + chainLength [(code, code')] := by
      simp [chainLength, Nat.add_assoc]
    have hround : A.Fits (fun whole => A.Known whole (start + chainLength [(code, code')]) (entry scope) ∧
        A.Known whole exit (entry scope)) start (entry scope) (chainCode start exit [(code, code')]) (entry scope) _ :=
      h.round hcondition (fun hw => (hparts hw).1) hinner (fun _ hp => by rw [hnext]; exact hp.1) (fun _ hp => hp.2)
    refine hround.mark fun whole _ hm => ?_
    intro scope' start' condition' body' code'' hb hcondition'
    cases hb with
    | here =>
      obtain rfl := Except.ok.inj (hcondition.symm.trans hcondition')
      exact hm
    | later _ hb => cases hb
  noBranches scope start _ exit := by
    refine Discipline.Fits.nil.mark fun whole _ _ => ?_
    intro scope' start' condition body code hb
    cases hb
  branches {scope scope₁ scope₂ start b rest branch branches} hbCode hb hrestCode hrest hcalls exit := by
    have hparts : wanted → branchCalls p b = true ∧ branchesCalls p rest = true :=
      fun hw => by simpa [branchesCalls] using hcalls hw
    have hothers := hrest (fun hw => (hparts hw).2) exit
    rw [h.same (branchCode_keeps hbCode).blocks] at hothers
    exact ((hb (fun hw => (hparts hw).1) exit).chain hothers).mark fun _ _ hm => branchMarks_cons hbCode hm.1 hm.2

/-! ### Functions -/

/-- The code of a function can be labelled, from the label of its first index on. -/
theorem function (h : Follows A layouts p wanted initial entry value) {f : Tree.Function} {g : Function}
    (hg : lowerFunction layouts f = .ok g) (hcalls : wanted → stmtsCalls p f.body = true) :
    ∃ whole, Labelled A (initial g.arity) g whole ∧
      StmtMarks A layouts entry (paramScope f.params) f.params.length f.body whole := by
  obtain ⟨body, scope, hbody, rfl⟩ := lowerFunction_eq_ok hg
  have hstmts := h.stmtCases.stmts hbody hcalls
  have hcode := (h.params f.params).append (by rw [length_paramCode, Nat.zero_add]; exact hstmts)
  rcases withReturn_cases (paramCode f.params ++ body) with ⟨-, heq⟩ | ⟨-, heq⟩
  · obtain ⟨whole, hstart, -, hmarks, hcovers⟩ := hcode.exists_whole
    exact ⟨whole, ⟨hstart, by rw [heq]; exact hcovers⟩, hmarks.2.2⟩
  · have hnull := h.null scope
    have hret : A.Fits (fun _ => True) (0 + (paramCode f.params ++ body ++ [Instr.op (.push .null)]).length) (value scope)
        [.ret] (value scope) (fun _ => True) := .ret (h.ret scope)
    have hall := (hcode.append (.straight rfl hnull.1 hnull.2)).append hret
    obtain ⟨whole, hstart, -, hmarks, hcovers⟩ := hall.exists_whole
    refine ⟨whole, ⟨hstart, ?_⟩, hmarks.1.1.2.2⟩
    rw [heq]
    simpa using hcovers

theorem functions (h : Follows A layouts p wanted initial entry value) {c : Chunk}
    (hlower : lowerFunctions layouts {} p.functions = .ok c) (hcalls : wanted → WellCalled p) :
    ∃ label : Function → List L, (∀ g ∈ c.functions, Labelled A (initial g.arity) g (label g)) ∧
      ∀ f ∈ p.functions, ∃ g, c.get? f.name = some g ∧
        StmtMarks A layouts entry (paramScope f.params) f.params.length f.body (label g) := by
  have hone : ∀ g : Function, ∃ whole : List L, ∀ f ∈ p.functions, lowerFunction layouts f = .ok g →
      Labelled A (initial g.arity) g whole ∧
        StmtMarks A layouts entry (paramScope f.params) f.params.length f.body whole := by
    intro g
    by_cases hex : ∃ f ∈ p.functions, lowerFunction layouts f = .ok g
    · obtain ⟨f, hf, hg⟩ := hex
      obtain ⟨whole, hwhole⟩ := h.function hg fun hw => hcalls hw f hf
      refine ⟨whole, fun f' hf' hg' => ?_⟩
      have hname : f'.name = f.name := (lowerFunction_name hg').symm.trans (lowerFunction_name hg)
      obtain rfl := lowerFunctions_name_inj hlower hf' hf hname
      exact hwhole
    · exact ⟨[], fun f hf hg => absurd ⟨f, hf, hg⟩ hex⟩
  choose label hlabel using hone
  refine ⟨label, fun g hg => ?_, fun f hf => ?_⟩
  · rcases lowerFunctions_mem hlower hg with hg | ⟨f, hf, hfg⟩
    · cases hg
    · exact (hlabel g f hf hfg).1
  · obtain ⟨g, hg, hget⟩ := lowerFunctions_of_mem hlower hf
    exact ⟨g, hget, (hlabel g f hf hg).2⟩

end Follows
end

end Bytecode.Safety
