import Bytecode.Proofs.Lowering.Aliases
import Bytecode.Proofs.Lowering.Loops

/-! Statements with an alias, anywhere in a function. The code in front of the place where the alias comes in stays as it is,
    except for jumps over the place; the code behind it has other slots and other targets. So the code of the function is the
    old one, renamed, with a store and a load in it. -/

namespace Bytecode.Lowering
open Scoping

/-! ### Code that is not renamed -/

/-- The numbers below a bound stay as they are. -/
def Fixes (f : Nat → Nat) (bound : Nat) : Prop :=
  ∀ k < bound, f k = k

theorem Fixes.mono {f : Nat → Nat} {bound bound' : Nat} (h : Fixes f bound) (hle : bound' ≤ bound) : Fixes f bound' :=
  fun k hk => h k (Nat.lt_of_lt_of_le hk hle)

section
variable {layouts : Layouts} {scope scope' : Scope} {slot target : Nat → Nat} {code : List Instr}

/-- Only slots below the next one are in use. -/
theorem Scope.WellNumbered.find?_lt (hs : scope.WellNumbered) {x : String} {k : Nat} (h : scope.find? x = some k) :
    k < scope.next :=
  hs.lt_next k (Scope.mem_slots h)

/-- All variables in scope keep their slots. -/
theorem Scope.WellNumbered.maps_self (hs : scope.WellNumbered) (hslot : Fixes slot scope.next) (mentions : List Mention) :
    Maps slot scope scope mentions := by
  intro x _
  cases hx : scope.find? x with
  | none => rfl
  | some k => exact congrArg some (hslot k (hs.find?_lt hx)).symm

theorem map_eq_self_of_ok {f : Instr → Instr} {x : Except Error (List Instr)} (h : x = List.map f <$> x)
    (hx : x = .ok code) : code.map f = code := by
  rw [hx] at h
  exact (Except.ok.inj h).symm

/-- Moving slots that are not in use yet changes nothing in an expression. -/
theorem exprCode_fixed {e : Tree.Expr} (hs : scope.WellNumbered) (hslot : Fixes slot scope.next) (target : Nat → Nat)
    (h : exprCode layouts scope e = .ok code) : code.map (Instr.rename slot target) = code :=
  map_eq_self_of_ok (exprCode_rename target e (hs.maps_self hslot _)) h

theorem argsCode_fixed {args : List Tree.Expr} (hs : scope.WellNumbered) (hslot : Fixes slot scope.next)
    (target : Nat → Nat) (h : argsCode layouts scope args = .ok code) : code.map (Instr.rename slot target) = code :=
  map_eq_self_of_ok (argsCode_rename target args (hs.maps_self hslot _)) h

theorem assignCode_fixed {a : Tree.Assignment} (hs : scope.WellNumbered) (hslot : Fixes slot scope.next)
    (target : Nat → Nat) (h : assignCode layouts scope a = .ok code) : code.map (Instr.rename slot target) = code :=
  map_eq_self_of_ok (assignCode_rename target a (hs.maps_self hslot _)) h

/-- Code stays as it is if its slots and the indices up to its end do. Only the exit of branches may lie elsewhere. -/
theorem fixCases (layouts : Layouts) (slot target : Nat → Nat) : StmtCases layouts
    (fun scope start _ code scope' => scope.WellNumbered → Fixes slot scope'.next →
      Fixes target (start + code.length) → code.map (Instr.rename slot target) = code)
    (fun scope start _ code scope' => scope.WellNumbered → Fixes slot scope'.next →
      Fixes target (start + code.length) → code.map (Instr.rename slot target) = code)
    (fun scope start _ branch scope' => scope.WellNumbered → Fixes slot scope'.next →
      Fixes target (start + chainLength [branch] + 1) → ∀ exit,
        (chainCode start exit [branch]).map (Instr.rename slot target) = chainCode start (target exit) [branch])
    (fun scope start _ branches scope' => scope.WellNumbered → Fixes slot scope'.next →
      Fixes target (start + chainLength branches + 1) → ∀ exit,
        (chainCode start exit branches).map (Instr.rename slot target) = chainCode start (target exit) branches) where
  declare {scope _ d _} hinit hs hslot _ := by
    rw [Scope.declare_next] at hslot
    simp [exprCode_fixed hs (hslot.mono (Nat.le_succ _)) target hinit, hslot scope.next (Nat.lt_succ_self _)]
  assign ha hs hslot _ := assignCode_fixed hs hslot target ha
  call {_ _ name _ _} hargs hs hslot _ := by
    rw [List.map_append, argsCode_fixed hs hslot target hargs, List.map_cons, rename_callInstr]
    split <;> rfl
  choose {scope _ _ _ start _ _ _ branch branches code} hfirstCode hfirst hothersCode hothers hotherwiseCode hotherwise hs
      hslot htarget := by
    have hkeeps := branchCode_keeps hfirstCode
    have hkeeps' := branchesCode_keeps hothersCode
    have hgrows := stmtsCode_grows hotherwiseCode
    have hlength := chainLength_cons branch branches
    simp only [List.length_append, length_chainCode, List.length_singleton] at htarget
    -- The exit lies inside the code of the choice, where targets stay as they are.
    have hexit := htarget (start + chainLength (branch :: branches) + code.length) (by omega)
    rw [chainCode_cons, List.map_append, List.map_append, List.map_append,
      hfirst hs (hslot.mono (Nat.le_trans hkeeps'.next hgrows.next)) (htarget.mono (by omega)),
      hothers (hkeeps.numbered hs) (hslot.mono hgrows.next) (htarget.mono (by omega)),
      hotherwise (hkeeps'.numbered (hkeeps.numbered hs)).enter hslot (htarget.mono (by omega)), hexit]
    rfl
  loop {_ _ start _ _ code code'} hcondition hbodyCode hbody hs hslot htarget := by
    have hnext := (stmtsCode_grows hbodyCode).next
    rw [length_loopCode] at htarget
    have hexit := htarget (start + code.length + code'.length + 2) (by omega)
    have hstart := htarget start (by omega)
    simp [loopCode, hexit, hstart, exprCode_fixed hs (hslot.mono hnext) target hcondition,
      hbody hs.enter hslot (htarget.mono (by omega))]
  count {scope scope₁ start init _ _ _ icode code code' scode} hinit hcondition hbodyCode hbody hstep hs hslot htarget := by
    have hgrows := stmtsCode_grows hbodyCode
    have hnext : scope.next + 1 ≤ scope₁.next := by simpa using hgrows.next
    have hdeclared := hs.enter.declare init.var.name
    simp only [List.length_append, length_loopCode, List.length_singleton] at htarget
    have hexit := htarget (start + (icode.length + 1) + code.length + (code'.length + scode.length) + 2) (by omega)
    have hstart := htarget (start + (icode.length + 1)) (by omega)
    have hvar := hslot scope.next hnext
    simp [loopCode, hexit, hstart, hvar, exprCode_fixed hs.enter (hslot.mono (Nat.le_of_succ_le hnext)) target hinit,
      exprCode_fixed hdeclared (hslot.mono hgrows.next) target hcondition,
      hbody hdeclared.enter hslot (htarget.mono (by omega)),
      assignCode_fixed ((hgrows.block).numbered hdeclared) hslot target hstep]
  ret he hs hslot _ := by simp [exprCode_fixed hs hslot target he]
  none _ _ _ _ _ := rfl
  more hsCode hs hrestCode hrest hscope hslot htarget := by
    have hgrows := stmtCode_grows hsCode
    rw [List.length_append] at htarget
    rw [List.map_append, hs hscope (hslot.mono (stmtsCode_grows hrestCode).next) (htarget.mono (by omega)),
      hrest (hgrows.numbered hscope) hslot (htarget.mono (by omega))]
  branch {_ _ start _ _ code code'} hcondition hbodyCode hbody hs hslot htarget exit := by
    have hnext := (stmtsCode_grows hbodyCode).next
    have hlength : chainLength [(code, code')] = code.length + code'.length + 2 := by simp [chainLength]
    rw [hlength] at htarget
    have hfail := htarget (start + code.length + code'.length + 2) (by omega)
    simp [chainCode, hfail, exprCode_fixed hs (hslot.mono hnext) target hcondition,
      hbody hs.enter hslot (htarget.mono (by omega))]
  noBranches _ _ _ _ _ _ := rfl
  branches {_ _ _ _ _ _ branch branches} hbCode hb hrestCode hrest hs hslot htarget exit := by
    have hkeeps := branchCode_keeps hbCode
    have hlength := chainLength_cons branch branches
    rw [chainCode_cons, List.map_append, hb hs (hslot.mono (branchesCode_keeps hrestCode).next) (htarget.mono (by omega)),
      hrest (hkeeps.numbered hs) hslot (htarget.mono (by omega)), ← chainCode_cons]

end

/-! ### A store and a load inside code -/

/-- The slots from a number on make room for another one. -/
def slotShift (n k : Nat) : Nat :=
  if k < n then k else k + 1

/-- The indices from a place on make room for two instructions. -/
def targetShift (place j : Nat) : Nat :=
  if j < place then j else j + 2

theorem slotShift_fixes (n : Nat) : Fixes (slotShift n) n :=
  fun _ hk => if_pos hk

theorem targetShift_fixes (place : Nat) : Fixes (targetShift place) place :=
  fun _ hj => if_pos hj

theorem targetShift_of_le {place j : Nat} (h : place ≤ j) : targetShift place j = j + 2 :=
  if_neg (Nat.not_lt_of_le h)

theorem targetShift_shifts {place start : Nat} (h : place ≤ start) : Shifts (targetShift place) start (start + 2) := by
  intro k
  rw [targetShift_of_le (by omega)]
  omega

/-- An instruction that makes room for another slot and for two instructions. -/
abbrev makeRoom (n place : Nat) : Instr → Instr :=
  Instr.rename (slotShift n) (targetShift place)

/-- The second code is the first one with a store and a load of slot `n` in it, at a place behind a value that the first
code leaves. The other slots and the targets make room for them. -/
def Inserted (n place start : Nat) (code code' : List Instr) : Prop :=
  ∃ a b, code = a ++ b ∧ place = start + a.length ∧ Pushes a ∧ b ≠ [] ∧
    code' = a.map (makeRoom n place) ++ .store n :: .load n :: b.map (makeRoom n place)

namespace Inserted
variable {n place start : Nat} {code code' : List Instr}

theorem length (h : Inserted n place start code code') : code'.length = code.length + 2 := by
  obtain ⟨a, b, rfl, -, -, -, rfl⟩ := h
  simp [Nat.add_assoc]

theorem start_lt (h : Inserted n place start code code') : start < place := by
  obtain ⟨_, b, rfl, rfl, ⟨init, i, rfl, -⟩, -, rfl⟩ := h
  simp

theorem lt_end (h : Inserted n place start code code') : place < start + code.length := by
  obtain ⟨a, b, rfl, rfl, -, hb, rfl⟩ := h
  have := List.length_pos_iff.mpr hb
  simp
  omega

/-- What stands behind the code moves to the new end. -/
theorem shifts (h : Inserted n place start code code') :
    Shifts (targetShift place) (start + code.length) (start + code'.length) := by
  rw [h.length]
  exact targetShift_shifts (Nat.le_of_lt h.lt_end)

/-- The index behind the jump at the end of a body, where a condition in front of the body leads to. -/
theorem exit_eq {size : Nat} (h : Inserted n place (start + size + 1) code code') :
    targetShift place (start + size + code.length + 2) = start + size + code'.length + 2 := by
  have hend := h.lt_end
  rw [targetShift_of_le (by omega), h.length]
  omega

theorem behind (h : Inserted n place start code code') (more : List Instr) :
    Inserted n place start (code ++ more) (code' ++ more.map (makeRoom n place)) := by
  obtain ⟨a, b, rfl, rfl, ha, hb, rfl⟩ := h
  exact ⟨a, b ++ more, by simp, rfl, ha, by simp [hb], by simp⟩

theorem before (h : Inserted n place start code code') (first : List Instr) {start' : Nat}
    (hstart : start' + first.length = start) :
    Inserted n place start' (first ++ code) (first.map (makeRoom n place) ++ code') := by
  obtain ⟨a, b, rfl, rfl, ha, hb, rfl⟩ := h
  subst hstart
  exact ⟨first ++ a, b, by simp, by simp [Nat.add_assoc], ha.append first, hb, by simp⟩

end Inserted

/-- Lowering something else gives the same code with a store and a load in it, and a scope behind it in which all names but
one mean the same. -/
def Detoured (t : String) (scope : Scope) (start : Nat) (r : List Instr × Scope)
    (x : Except Error (List Instr × Scope)) : Prop :=
  ∃ n place r', x = .ok r' ∧ scope.next ≤ n ∧ Inserted n place start r.1 r'.1 ∧
    r.2.Renamed (· ≠ t) (slotShift n) r'.2

/-! ### The alias -/

section
variable {layouts : Layouts} {scope after : Scope} {start : Nat} {code : List Instr} {t : String} {type : Tree.TypeName}

/-- A new variable takes the next slot, and nothing else changes. -/
theorem Scope.WellNumbered.renamed_declare (hs : scope.WellNumbered) (t : String) :
    scope.Renamed (· ≠ t) (slotShift scope.next) (scope.declare t) := by
  have hlookup : ∀ block ∈ scope.blocks, ∀ x, List.lookup x block = (List.lookup x block).map (slotShift scope.next) := by
    intro block hblock x
    cases hx : List.lookup x block with
    | none => rfl
    | some k =>
      have hmem : k ∈ scope.slots := by
        obtain ⟨before, behind, heq, -⟩ := List.lookup_eq_some_iff.mp hx
        exact List.mem_map.mpr ⟨(x, k), List.mem_flatten.mpr ⟨block, hblock, by simp [heq]⟩, rfl⟩
      exact congrArg some (slotShift_fixes _ k (hs.lt_next k hmem)).symm
  refine ⟨?_, fun k => ?_⟩
  · obtain ⟨blocks, next⟩ := scope
    cases blocks with
    | nil => exact .nil
    | cons block rest =>
      refine .cons (fun x hx => ?_) (List.forall₂_same.mpr fun b hb x _ => hlookup b (List.mem_cons_of_mem _ hb) x)
      rw [List.lookup_cons, beq_false_of_ne hx]
      exact hlookup block List.mem_cons_self x
  · rw [Scope.declare_next, slotShift, if_neg (by omega)]
    omega

theorem stmtsCode_cons_ok {st : Tree.Stmt} {stmts : List Tree.Stmt} {scope₁ : Scope} {code' : List Instr}
    (hst : stmtCode layouts scope start st = .ok (code, scope₁))
    (hrest : stmtsCode layouts scope₁ (start + code.length) stmts = .ok (code', after)) :
    stmtsCode layouts scope start (st :: stmts) = .ok (code ++ code', after) := by
  simp only [stmtsCode, hst, hrest, ok_eq_pure, pure_bind]

theorem stmtsCode_single {st : Tree.Stmt} (h : stmtCode layouts scope start st = .ok (code, after)) :
    stmtsCode layouts scope start [st] = .ok (code, after) := by
  simp only [stmtsCode, h, ok_eq_pure, pure_bind, List.append_nil]

/-- A statement and the two that stand for it differ by the detour over the new variable. -/
theorem alias_detoured {st : Tree.Stmt} {new : List Tree.Stmt} (halias : Alias t type st new) (hs : scope.WellNumbered)
    (hfresh : ∀ x ∈ names (stmtMentions st), x ≠ t) (h : stmtCode layouts scope start st = .ok (code, after)) :
    Detoured t scope start (code, after) (stmtsCode layouts scope start new) := by
  obtain ⟨first, st', a, b, rfl, rfl, hfirst, hb, hrest⟩ := stmtCode_alias halias h
  have hfind : (scope.declare t).find? t = some scope.next := by
    cases first with
    | nil => cases hfirst
    | cons base rest =>
      obtain ⟨k, hk, -⟩ := Except.bind_eq_ok_iff.mp hfirst
      exact Scope.find?_declare_self (Scope.blocks_ne_nil (Scope.slot_eq_ok_iff.mp hk)) t
  obtain ⟨after', hst', hafter⟩ := hrest (scope.declare t) (slotShift scope.next) (targetShift (start + a.length)) scope.next
    (start + (a ++ [Instr.store scope.next]).length) (hs.renamed_declare t) hfresh hfind
  have hdeclare : stmtCode layouts scope start (.declare ⟨⟨t, type⟩, .path first⟩) =
      .ok (a ++ [.store scope.next], scope.declare t) := by
    simp only [stmtCode, declareCode, hfirst]
    rfl
  refine ⟨scope.next, start + a.length, _, stmtsCode_cons_ok hdeclare (stmtsCode_single hst'), Nat.le_refl _,
    ⟨a, b, rfl, rfl, pushes_path hfirst, hb, ?_⟩, hafter⟩
  rw [exprCode_fixed hs (slotShift_fixes _) _ hfirst]
  simp

/-! ### Around the alias -/

theorem stmtsMentions_append (stmts more : List Tree.Stmt) :
    stmtsMentions (stmts ++ more) = stmtsMentions stmts ++ stmtsMentions more := by
  induction stmts with
  | nil => rfl
  | cons s rest ih => simp only [List.cons_append, stmtsMentions, ih, List.append_assoc]

theorem branchesMentions_append (branches more : List Tree.Branch) :
    branchesMentions (branches ++ more) = branchesMentions branches ++ branchesMentions more := by
  induction branches with
  | nil => rfl
  | cons b rest ih => simp only [List.cons_append, branchesMentions, ih, List.append_assoc]

/-- Branches are lowered one behind the other. -/
theorem branchesCode_append (layouts : Layouts) (scope : Scope) (start : Nat) (branches more : List Tree.Branch) :
    branchesCode layouts scope start (branches ++ more) = (do
      let r ← branchesCode layouts scope start branches
      let r' ← branchesCode layouts r.2 (start + chainLength r.1) more
      return (r.1 ++ r'.1, r'.2)) := by
  induction branches generalizing scope start with
  | nil =>
    simp only [List.nil_append, branchesCode]
    exact (bind_pure (branchesCode layouts scope start more)).symm
  | cons b rest ih =>
    simp only [List.cons_append, branchesCode, ih, bind_assoc, pure_bind]
    refine bind_congr fun r => bind_congr fun r' => ?_
    rw [chainLength_cons r.1 r'.1, Nat.add_assoc]

section
variable {kept : String → Prop} {slot target : Nat → Nat} {s s' : Scope} {start' : Nat}

theorem stmtsCode_renamed_ok {stmts : List Tree.Stmt} (htarget : Shifts target start start') (hs : s.Renamed kept slot s')
    (hkept : ∀ x ∈ names (stmtsMentions stmts), kept x) (h : stmtsCode layouts s start stmts = .ok (code, after)) :
    ∃ after', stmtsCode layouts s' start' stmts = .ok (code.map (Instr.rename slot target), after') ∧
      after.Renamed kept slot after' := by
  have hagree : Agree _ (stmtsCode layouts s start stmts) (stmtsCode layouts s' start' stmts) :=
    stmtsCode_renamed stmts htarget hs hkept
  rw [h] at hagree
  obtain ⟨⟨_, after'⟩, h', ⟨rfl, hrenamed⟩⟩ := hagree.of_ok
  exact ⟨after', h', hrenamed⟩

theorem branchesCode_renamed_ok {branches : List Tree.Branch} {chain : List (List Instr × List Instr)}
    (htarget : Shifts target start start') (hs : s.Renamed kept slot s')
    (hkept : ∀ x ∈ names (branchesMentions branches), kept x)
    (h : branchesCode layouts s start branches = .ok (chain, after)) :
    ∃ after', branchesCode layouts s' start' branches =
        .ok (chain.map (Prod.map (List.map (Instr.rename slot target)) (List.map (Instr.rename slot target))), after') ∧
      after.Renamed kept slot after' := by
  have hagree : Agree _ (branchesCode layouts s start branches) (branchesCode layouts s' start' branches) :=
    branchesCode_renamed branches htarget hs hkept
  rw [h] at hagree
  obtain ⟨⟨_, after'⟩, h', ⟨rfl, hrenamed⟩⟩ := hagree.of_ok
  exact ⟨after', h', hrenamed⟩

end

/-- Statements around one that is replaced. -/
theorem stmts_detoured {before behind new : List Tree.Stmt} {st : Tree.Stmt} (hs : scope.WellNumbered)
    (hfresh : ∀ x ∈ names (stmtsMentions (before ++ st :: behind)), x ≠ t)
    (h : stmtsCode layouts scope start (before ++ st :: behind) = .ok (code, after))
    (hst : ∀ {scope after : Scope} {start : Nat} {code : List Instr}, scope.WellNumbered →
      (∀ x ∈ names (stmtMentions st), x ≠ t) → stmtCode layouts scope start st = .ok (code, after) →
      Detoured t scope start (code, after) (stmtsCode layouts scope start new)) :
    Detoured t scope start (code, after) (stmtsCode layouts scope start (before ++ (new ++ behind))) := by
  rw [stmtsMentions_append] at hfresh
  obtain ⟨hfreshSt, hfreshBehind⟩ := forall_names_append.mp (forall_names_append.mp hfresh).2
  simp only [stmtsCode_append, stmtsCode, Except.bind_eq_ok_iff, Except.pure_eq_ok_iff, Prod.exists, Prod.mk.injEq] at h
  obtain ⟨code₁, scope₁, h₁, _, _, ⟨code₂, scope₂, h₂, code₃, scope₃, h₃, rfl, rfl⟩, rfl, rfl⟩ := h
  have hgrows := stmtsCode_grows h₁
  obtain ⟨n, place, ⟨code₂', scope₂'⟩, hnew, hn, hinserted, hrenamed⟩ := hst (hgrows.numbered hs) hfreshSt h₂
  -- Behind the statement everything moves, in front of it nothing does.
  obtain ⟨scope₃', h₃', hrenamed'⟩ := stmtsCode_renamed_ok hinserted.shifts hrenamed hfreshBehind h₃
  have hplace := Nat.le_of_lt hinserted.start_lt
  have hfixed : code₁.map (makeRoom n place) = code₁ :=
    (fixCases layouts _ _).stmts h₁ hs ((slotShift_fixes n).mono hn) ((targetShift_fixes place).mono hplace)
  refine ⟨n, place, (code₁ ++ (code₂' ++ code₃.map (makeRoom n place)), scope₃'), ?_, Nat.le_trans hgrows.next hn, ?_,
    hrenamed'⟩
  · simp only [stmtsCode_append, h₁, hnew, h₃', ok_eq_pure, pure_bind]
  · have hwhole := (hinserted.behind code₃).before code₁ rfl
    rwa [hfixed] at hwhole

/-- The code of a body is replaced wherever the body stands. -/
def BodyDetoured (t : String) (layouts : Layouts) (body body' : List Tree.Stmt) : Prop :=
  ∀ {scope after : Scope} {start : Nat} {code : List Instr}, scope.WellNumbered →
    (∀ x ∈ names (stmtsMentions body), x ≠ t) → stmtsCode layouts scope start body = .ok (code, after) →
    Detoured t scope start (code, after) (stmtsCode layouts scope start body')

/-- The exit of a loop moves with its body. -/
theorem loop_inserted {n place : Nat} {condition body body' : List Instr}
    (h : Inserted n place (start + condition.length + 1) body body')
    (hcondition : condition.map (makeRoom n place) = condition) :
    Inserted n place start (loopCode start condition body) (loopCode start condition body') := by
  have hplace := h.start_lt
  have hstart : targetShift place start = start := targetShift_fixes place start (by omega)
  have hwhole := (h.behind [.jump start, .op .nop]).before
    (condition ++ [.jumpUnless (start + condition.length + body.length + 2)]) (by simp; rfl)
  simpa [loopCode, hcondition, h.exit_eq, hstart] using hwhole

/-- A detour in the body of a loop is a detour in the loop. -/
theorem loop_detoured {body body' : List Tree.Stmt} (hbody : BodyDetoured t layouts body body') {condition : Tree.Expr}
    (hs : scope.WellNumbered) (hfresh : ∀ x ∈ names (stmtMentions (.loop condition body)), x ≠ t)
    (h : stmtCode layouts scope start (.loop condition body) = .ok (code, after)) :
    Detoured t scope start (code, after) (stmtCode layouts scope start (.loop condition body')) := by
  simp only [stmtCode, Except.bind_eq_ok_iff, Except.pure_eq_ok_iff, Prod.exists, Prod.mk.injEq] at h
  obtain ⟨ccode, hcondition, bcode, scope₁, hbodyCode, rfl, rfl⟩ := h
  obtain ⟨n, place, ⟨bcode', scope₁'⟩, hnew, hn, hinserted, hrenamed⟩ :=
    hbody hs.enter (forall_names_block.mp (forall_names_append.mp hfresh).2) hbodyCode
  refine ⟨n, place, (loopCode start ccode bcode', scope₁'.leave), ?_, hn, ?_, hrenamed.leave⟩
  · simp only [stmtCode, hcondition, hnew, ok_eq_pure, pure_bind]
  · exact loop_inserted hinserted (exprCode_fixed hs ((slotShift_fixes n).mono hn) _ hcondition)

/-- A detour in the body of a counting loop is a detour in the loop, with the step behind it moved. -/
theorem count_detoured {body body' : List Tree.Stmt} (hbody : BodyDetoured t layouts body body') {init : Tree.Declaration}
    {condition : Tree.Expr} {step : Tree.Assignment} (hs : scope.WellNumbered)
    (hfresh : ∀ x ∈ names (stmtMentions (.count init condition step body)), x ≠ t)
    (h : stmtCode layouts scope start (.count init condition step body) = .ok (code, after)) :
    Detoured t scope start (code, after) (stmtCode layouts scope start (.count init condition step body')) := by
  obtain ⟨hfreshHead, hfreshStep⟩ := forall_names_append.mp (forall_names_block.mp hfresh)
  simp only [stmtCode, declareCode, Except.bind_eq_ok_iff, Except.pure_eq_ok_iff, Prod.exists, Prod.mk.injEq] at h
  obtain ⟨_, _, ⟨icode, hinit, rfl, rfl⟩, ccode, hcondition, bcode, scope₁, hbodyCode, scode, hstep, rfl, rfl⟩ := h
  have hdeclared := hs.enter.declare init.var.name
  obtain ⟨n, place, ⟨bcode', scope₁'⟩, hnew, hn, hinserted, hrenamed⟩ :=
    hbody hdeclared.enter (forall_names_block.mp (forall_names_append.mp hfreshHead).2) hbodyCode
  dsimp only at hinserted hrenamed
  have hnext : scope.next + 1 ≤ n := by simpa using hn
  -- The step stands behind the body, so it has the slots that have moved.
  have hstep' : assignCode layouts scope₁'.leave step = .ok (scode.map (makeRoom n place)) := by
    rw [assignCode_rename (targetShift place) step (hrenamed.leave.maps hfreshStep), hstep]
    rfl
  refine ⟨n, place, (icode ++ [.store scope.next] ++ loopCode (start + (icode ++ [Instr.store scope.next]).length) ccode
    (bcode' ++ scode.map (makeRoom n place)), scope₁'.leave.leave), ?_, Nat.le_of_succ_le hnext, ?_, hrenamed.leave.leave⟩
  · simp only [stmtCode, declareCode, hinit, hcondition, hnew, hstep', ok_eq_pure, pure_bind]
    rfl
  · have hfirst : (icode ++ [Instr.store scope.next]).map (makeRoom n place) = icode ++ [.store scope.next] := by
      simp [exprCode_fixed hs.enter ((slotShift_fixes n).mono (Nat.le_of_succ_le hnext)) (targetShift place) hinit,
        slotShift_fixes n scope.next hnext]
    have hloop := loop_inserted (hinserted.behind scode)
      (exprCode_fixed hdeclared ((slotShift_fixes n).mono hn) _ hcondition)
    have hwhole := hloop.before (icode ++ [.store scope.next]) rfl
    rwa [hfirst] at hwhole

/-- A condition that fails leads over the body. -/
theorem branch_inserted {n place : Nat} {condition body body' : List Instr}
    (h : Inserted n place (start + condition.length + 1) body body')
    (hcondition : condition.map (makeRoom n place) = condition) (exit : Nat) :
    Inserted n place start (chainCode start exit [(condition, body)])
      (chainCode start (targetShift place exit) [(condition, body')]) := by
  have hwhole := (h.behind [.jump exit]).before
    (condition ++ [.jumpUnless (start + condition.length + body.length + 2)]) (by simp; rfl)
  simpa [chainCode, hcondition, h.exit_eq] using hwhole

/-- Branches of which one has another body. All of them jump to an exit behind them. -/
theorem branches_detoured {body body' : List Tree.Stmt} (hbody : BodyDetoured t layouts body body')
    {before behind : List Tree.Branch} {condition : Tree.Expr} {chain : List (List Instr × List Instr)}
    (hs : scope.WellNumbered) (hfresh : ∀ x ∈ names (branchesMentions (before ++ .mk condition body :: behind)), x ≠ t)
    (h : branchesCode layouts scope start (before ++ .mk condition body :: behind) = .ok (chain, after)) :
    ∃ n place chain' after',
      branchesCode layouts scope start (before ++ .mk condition body' :: behind) = .ok (chain', after') ∧ scope.next ≤ n ∧
      (∀ exit, Inserted n place start (chainCode start exit chain) (chainCode start (targetShift place exit) chain')) ∧
      after.Renamed (· ≠ t) (slotShift n) after' := by
  rw [branchesMentions_append] at hfresh
  obtain ⟨hfreshBranch, hfreshBehind⟩ := forall_names_append.mp (forall_names_append.mp hfresh).2
  simp only [branchesCode_append, branchesCode, branchCode, Except.bind_eq_ok_iff, Except.pure_eq_ok_iff, Prod.exists,
    Prod.mk.injEq] at h
  obtain ⟨chain₁, scope₁, h₁, _, _, ⟨_, _, _, ⟨ccode, hcondition, bcode, scope₂, hbodyCode, ⟨rfl, rfl⟩, rfl⟩, chain₃, scope₃,
    h₃, rfl, rfl⟩, rfl, rfl⟩ := h
  have hkeeps := branchesCode_keeps h₁
  have hs₁ := hkeeps.numbered hs
  obtain ⟨n, place, ⟨bcode', scope₂'⟩, hnew, hn, hinserted, hrenamed⟩ :=
    hbody hs₁.enter (forall_names_block.mp (forall_names_append.mp hfreshBranch).2) hbodyCode
  dsimp only at hinserted hrenamed
  have hplace := hinserted.start_lt
  have hcondition' := exprCode_fixed hs₁ ((slotShift_fixes n).mono hn) (targetShift place) hcondition
  have hbranch := branch_inserted hinserted hcondition'
  have hshifts := (hbranch 0).shifts
  rw [length_chainCode, length_chainCode] at hshifts
  obtain ⟨scope₃', h₃', hrenamed'⟩ := branchesCode_renamed_ok hshifts hrenamed.leave hfreshBehind h₃
  -- The branches in front stay as they are, but for the exit that they jump to.
  have hfixed := (fixCases layouts (slotShift n) (targetShift place)).branchesOf h₁ hs ((slotShift_fixes n).mono hn)
    ((targetShift_fixes place).mono (by omega))
  refine ⟨n, place, chain₁ ++ (ccode, bcode') :: chain₃.map (Prod.map (List.map (makeRoom n place))
    (List.map (makeRoom n place))), scope₃', ?_, Nat.le_trans hkeeps.next hn, fun exit => ?_, hrenamed'⟩
  · simp only [branchesCode_append, branchesCode, branchCode, h₁, hcondition, hnew, h₃', ok_eq_pure, pure_bind]
  · have hwhole := ((hbranch exit).behind
      (chainCode (start + chainLength chain₁ + chainLength [(ccode, bcode)]) exit chain₃)).before
      (chainCode start exit chain₁) (by rw [length_chainCode])
    rwa [hfixed exit, rename_chainCode hshifts, ← chainCode_cons, ← chainCode_cons, ← chainCode_append,
      ← chainCode_append] at hwhole

/-- The branches and what is done otherwise, one behind the other. -/
theorem stmtCode_choose_eq (layouts : Layouts) (scope : Scope) (start : Nat) (first : Tree.Branch)
    (others : List Tree.Branch) (otherwise : List Tree.Stmt) :
    stmtCode layouts scope start (.choose first others otherwise) = (do
      let r ← branchesCode layouts scope start (first :: others)
      let r' ← stmtsCode layouts r.2.enter (start + chainLength r.1) otherwise
      return (chainCode start (start + chainLength r.1 + r'.1.length) r.1 ++ r'.1 ++ [.op .nop], r'.2.leave)) := by
  simp only [stmtCode, branchesCode, bind_assoc, pure_bind]

/-- A detour in the body of a branch moves the branches behind it and the exit. -/
theorem choose_detoured {body body' : List Tree.Stmt} (hbody : BodyDetoured t layouts body body')
    {first first' : Tree.Branch} {others others' before behind : List Tree.Branch} {condition : Tree.Expr}
    {otherwise : List Tree.Stmt} (hbranches : first :: others = before ++ .mk condition body :: behind)
    (hbranches' : first' :: others' = before ++ .mk condition body' :: behind)
    (hs : scope.WellNumbered) (hfresh : ∀ x ∈ names (stmtMentions (.choose first others otherwise)), x ≠ t)
    (h : stmtCode layouts scope start (.choose first others otherwise) = .ok (code, after)) :
    Detoured t scope start (code, after) (stmtCode layouts scope start (.choose first' others' otherwise)) := by
  obtain ⟨hfreshBranches, hfreshOtherwise⟩ := forall_names_append.mp hfresh
  have hmentions : branchMentions first ++ branchesMentions others = branchesMentions (first :: others) := rfl
  rw [hmentions, hbranches] at hfreshBranches
  simp only [stmtCode_choose_eq, hbranches, Except.bind_eq_ok_iff, Except.pure_eq_ok_iff, Prod.exists, Prod.mk.injEq] at h
  obtain ⟨chain, scope₁, hchain, ocode, scope₂, hotherwise, rfl, rfl⟩ := h
  obtain ⟨n, place, chain', scope₁', hchain', hn, hinserted, hrenamed⟩ := branches_detoured hbody hs hfreshBranches hchain
  have hshifts := (hinserted 0).shifts
  rw [length_chainCode, length_chainCode] at hshifts
  obtain ⟨scope₂', hotherwise', hrenamed'⟩ :=
    stmtsCode_renamed_ok hshifts hrenamed.enter (forall_names_block.mp hfreshOtherwise) hotherwise
  refine ⟨n, place, (chainCode start (start + chainLength chain' + ocode.length) chain' ++ ocode.map (makeRoom n place) ++
    [.op .nop], scope₂'.leave), ?_, hn, ?_, hrenamed'.leave⟩
  · simp only [stmtCode_choose_eq, hbranches', hchain', hotherwise', ok_eq_pure, pure_bind, List.length_map]
  · have hexit := (hshifts.add ocode.length).eq
    have hwhole := (hinserted (start + chainLength chain + ocode.length)).behind (ocode ++ [.op .nop])
    rw [hexit] at hwhole
    simpa using hwhole

/-- A detour in the last part of a choice moves nothing but the exit. -/
theorem otherwise_detoured {body body' : List Tree.Stmt} (hbody : BodyDetoured t layouts body body')
    {first : Tree.Branch} {others : List Tree.Branch} (hs : scope.WellNumbered)
    (hfresh : ∀ x ∈ names (stmtMentions (.choose first others body)), x ≠ t)
    (h : stmtCode layouts scope start (.choose first others body) = .ok (code, after)) :
    Detoured t scope start (code, after) (stmtCode layouts scope start (.choose first others body')) := by
  simp only [stmtCode_choose_eq, Except.bind_eq_ok_iff, Except.pure_eq_ok_iff, Prod.exists, Prod.mk.injEq] at h
  obtain ⟨chain, scope₁, hchain, ocode, scope₂, hotherwise, rfl, rfl⟩ := h
  have hkeeps := branchesCode_keeps hchain
  obtain ⟨n, place, ⟨ocode', scope₂'⟩, hnew, hn, hinserted, hrenamed⟩ :=
    hbody (hkeeps.numbered hs).enter (forall_names_block.mp (forall_names_append.mp hfresh).2) hotherwise
  have hplace := hinserted.start_lt
  have hfixed := (fixCases layouts (slotShift n) (targetShift place)).branchesOf hchain hs ((slotShift_fixes n).mono hn)
    ((targetShift_fixes place).mono (by omega))
  refine ⟨n, place, (chainCode start (start + chainLength chain + ocode'.length) chain ++ ocode' ++ [.op .nop],
    scope₂'.leave), ?_, Nat.le_trans hkeeps.next hn, ?_, hrenamed.leave⟩
  · simp only [stmtCode_choose_eq, hchain, hnew, ok_eq_pure, pure_bind]
  · have hexit := hinserted.shifts.eq
    have hwhole := (hinserted.behind [.op .nop]).before (chainCode start (start + chainLength chain + ocode.length) chain)
      (by rw [length_chainCode])
    rw [hfixed, hexit] at hwhole
    simpa using hwhole

end

/-! ### An alias anywhere in a function -/

/-- A statement with another body in place of one of its bodies. -/
inductive Within (body body' : List Tree.Stmt) : Tree.Stmt → Tree.Stmt → Prop where
  | loop (condition : Tree.Expr) : Within body body' (.loop condition body) (.loop condition body')
  | count (init : Tree.Declaration) (condition : Tree.Expr) (step : Tree.Assignment) :
      Within body body' (.count init condition step body) (.count init condition step body')
  | branch {first first' : Tree.Branch} {others others' before behind : List Tree.Branch} {condition : Tree.Expr}
      (otherwise : List Tree.Stmt) (hbranches : first :: others = before ++ .mk condition body :: behind)
      (hbranches' : first' :: others' = before ++ .mk condition body' :: behind) :
      Within body body' (.choose first others otherwise) (.choose first' others' otherwise)
  | otherwise (first : Tree.Branch) (others : List Tree.Branch) :
      Within body body' (.choose first others body) (.choose first others body')

/-- One of some statements, or of those inside of them at any depth, is replaced. -/
inductive Rewrites (R : Tree.Stmt → List Tree.Stmt → Prop) : List Tree.Stmt → List Tree.Stmt → Prop where
  | here {st : Tree.Stmt} {new : List Tree.Stmt} (before : List Tree.Stmt) (hst : R st new) (behind : List Tree.Stmt) :
      Rewrites R (before ++ st :: behind) (before ++ (new ++ behind))
  | within {body body' : List Tree.Stmt} {st st' : Tree.Stmt} (before : List Tree.Stmt) (hst : Within body body' st st')
      (hbody : Rewrites R body body') (behind : List Tree.Stmt) :
      Rewrites R (before ++ st :: behind) (before ++ ([st'] ++ behind))

section
variable {layouts : Layouts} {t : String} {type : Tree.TypeName} {body body' : List Tree.Stmt}

theorem within_detoured {st st' : Tree.Stmt} (hbody : BodyDetoured t layouts body body') (hst : Within body body' st st')
    {scope after : Scope} {start : Nat} {code : List Instr} (hs : scope.WellNumbered)
    (hfresh : ∀ x ∈ names (stmtMentions st), x ≠ t) (h : stmtCode layouts scope start st = .ok (code, after)) :
    Detoured t scope start (code, after) (stmtCode layouts scope start st') := by
  cases hst with
  | loop condition => exact loop_detoured hbody hs hfresh h
  | count init condition step => exact count_detoured hbody hs hfresh h
  | branch otherwise hbranches hbranches' => exact choose_detoured hbody hbranches hbranches' hs hfresh h
  | otherwise first others => exact otherwise_detoured hbody hs hfresh h

/-- Wherever the alias comes in, the code gets a store and a load. -/
theorem rewrites_detoured (h : Rewrites (Alias t type) body body') : BodyDetoured t layouts body body' := by
  induction h with
  | here before hst behind =>
    exact fun hs hfresh h => stmts_detoured hs hfresh h fun hs hfresh h => alias_detoured hst hs hfresh h
  | within before hst _ behind ih =>
    intro scope after start code hs hfresh h
    refine stmts_detoured hs hfresh h fun hs hfresh h => ?_
    obtain ⟨n, place, ⟨code', after'⟩, hnew, hdetour⟩ := within_detoured ih hst hs hfresh h
    exact ⟨n, place, (code', after'), stmtsCode_single hnew, hdetour⟩

/-! ### Functions -/

theorem withReturn_of_ret {code : List Instr} (h : code.getLast? = some .ret) : withReturn code = code := by
  unfold withReturn
  rw [h]

theorem withReturn_of_ne {code : List Instr} (h : code.getLast? ≠ some .ret) :
    withReturn code = code ++ [.op (.push .null), .ret] := by
  rcases withReturn_cases code with ⟨hret, -⟩ | ⟨-, heq⟩
  · exact absurd hret h
  · exact heq

theorem withReturn_append (code : List Instr) {more : List Instr} (h : more ≠ []) :
    withReturn (code ++ more) = code ++ withReturn more := by
  have hlast : (code ++ more).getLast? = more.getLast? := List.getLast?_append_of_ne_nil _ h
  by_cases hret : more.getLast? = some .ret
  · rw [withReturn_of_ret hret, withReturn_of_ret (hlast.trans hret)]
  · rw [withReturn_of_ne hret, withReturn_of_ne (hlast ▸ hret), List.append_assoc]

/-- A return at the end stays a return whatever is renamed. -/
theorem withReturn_rename (slot target : Nat → Nat) (code : List Instr) :
    withReturn (code.map (Instr.rename slot target)) = (withReturn code).map (Instr.rename slot target) := by
  have hlast : (code.map (Instr.rename slot target)).getLast? = some .ret ↔ code.getLast? = some .ret := by
    rw [List.getLast?_map]
    cases code.getLast? with
    | none => simp
    | some i => cases i <;> simp [Instr.rename]
  by_cases hret : code.getLast? = some .ret
  · rw [withReturn_of_ret hret, withReturn_of_ret (hlast.mpr hret)]
  · rw [withReturn_of_ne hret, withReturn_of_ne (mt hlast.mp hret), List.map_append]
    rfl

/-- What is put in front of other code does not become its end. -/
theorem Inserted.withReturn {n place start : Nat} {code code' : List Instr} (h : Inserted n place start code code') :
    Inserted n place start (withReturn code) (withReturn code') := by
  obtain ⟨a, b, rfl, hplace, ha, hb, rfl⟩ := h
  have hb' : b.map (makeRoom n place) ≠ [] := by simpa using hb
  refine ⟨a, Lowering.withReturn b, withReturn_append a hb, hplace, ha, ?_, ?_⟩
  · intro hnil
    have hlast := withReturn_getLast? b
    rw [hnil] at hlast
    cases hlast
  · have hreturn := withReturn_append (a.map (makeRoom n place) ++ [.store n, .load n]) hb'
    rw [withReturn_rename] at hreturn
    simpa using hreturn

theorem paramCode_fixed {n : Nat} (params : List Tree.Variable) (hn : params.length ≤ n) (target : Nat → Nat) :
    (paramCode params).map (Instr.rename (slotShift n) target) = paramCode params := by
  unfold paramCode
  rw [List.map_map]
  refine List.map_congr_left fun k hk => congrArg Instr.store (slotShift_fixes n k ?_)
  exact Nat.lt_of_lt_of_le (List.mem_range.mp hk) hn

/-- The code of a function with an alias in its body. -/
theorem lowerFunction_rewrites {f : Tree.Function} {g : Function} (h : lowerFunction layouts f = .ok g)
    (hrewrites : Rewrites (Alias t type) f.body body') (hfresh : ∀ x ∈ names (stmtsMentions f.body), x ≠ t) :
    ∃ n place code, lowerFunction layouts { f with body := body' } = .ok { g with code := code.toArray } ∧
      Inserted n place 0 g.code.toList code := by
  obtain ⟨bcode, scope, hbody, rfl⟩ := lowerFunction_eq_ok h
  obtain ⟨n, place, ⟨bcode', scope'⟩, hnew, hn, hinserted, -⟩ :=
    rewrites_detoured hrewrites (paramScope_wellNumbered f.params) hfresh hbody
  refine ⟨n, place, Lowering.withReturn (paramCode f.params ++ bcode'), ?_, ?_⟩
  · simp only [lowerFunction, functionCode, hnew, ok_eq_pure, pure_bind]
  · have hwhole := hinserted.before (paramCode f.params) (by rw [length_paramCode, Nat.zero_add])
    rw [paramScope_next] at hn
    rw [paramCode_fixed f.params hn] at hwhole
    exact hwhole.withReturn

end

end Bytecode.Lowering
