import Bytecode.Lowering
import Bytecode.Proofs.Lowering.Control
import Bytecode.Proofs.Lowering.Scope
import Bytecode.Proofs.Scoping.Mentions

/-! Lowering reads the names of a tree from the first to the last. Whether a tree can be lowered, to which instructions about
    slots, and with which scope behind it, depends on its mentions alone: it is what a scan of them gives, which keeps the
    open blocks with their slots and stops at the first mention that is wrong. -/

section
variable {ε α β : Type} {x : Except ε α} {e : ε}

theorem Except.bind_eq_error_iff {k : α → Except ε β} :
    x >>= k = .error e ↔ x = .error e ∨ ∃ a, x = .ok a ∧ k a = .error e := by
  cases x with
  | error e' =>
    show Except.error e' = Except.error e ↔ _
    simp
  | ok a =>
    show k a = Except.error e ↔ _
    simp

theorem Except.ok_iff_not_error : (∃ a, x = .ok a) ↔ ∀ e, x ≠ .error e := by
  cases x <;> simp

end

namespace Bytecode

/-- The instruction is one about a slot. -/
def Instr.usesSlot : Instr → Bool
  | .load _ | .store _ => true
  | _ => false

namespace Scoping
open Lowering

/-- The instructions about slots in code, in their order. -/
def slotCode (code : List Instr) : List Instr :=
  code.filter Instr.usesSlot

/-- The scope behind a mention. -/
def Mention.move (scope : Scope) : Mention → Scope
  | .opens => scope.enter
  | .closes => scope.leave
  | .declares name => scope.declare name
  | _ => scope

/-- The instructions about slots for a mention, unless it is wrong. -/
def Mention.emit (layouts : Layouts) (scope : Scope) : Mention → Except Error (List Instr)
  | .opens | .closes => pure []
  | .declares _ => pure [.store scope.next]
  | .reads name => (fun slot => [.load slot]) <$> scope.slot name
  | .targets name => (fun _ => []) <$> scope.slot name
  | .assigns name => (fun slot => [.store slot]) <$> scope.slot name
  | .makes struct => (fun _ => []) <$> layouts.fields struct
  | .nameless => .error .emptyPath

/-- Reads mentions from the first to the last: the instructions about slots, and the scope behind them. -/
def scan (layouts : Layouts) : Scope → List Mention → Except Error (List Instr × Scope)
  | scope, [] => pure ([], scope)
  | scope, m :: rest => do
    let code ← m.emit layouts scope
    let r ← scan layouts (m.move scope) rest
    return (code ++ r.1, r.2)

section
variable {code code' : List Instr}

@[simp] theorem slotCode_nil : slotCode [] = [] := rfl

@[simp] theorem slotCode_append (code code' : List Instr) : slotCode (code ++ code') = slotCode code ++ slotCode code' :=
  List.filter_append ..

@[simp] theorem slotCode_cons (i : Instr) (code : List Instr) :
    slotCode (i :: code) = (if i.usesSlot then [i] else []) ++ slotCode code := by
  unfold slotCode
  rw [List.filter_cons]
  split <;> simp_all

/-- Making a struct uses no slot. -/
theorem slotCode_newStructCode (fields : List String) : slotCode (newStructCode fields) = [] := by
  unfold newStructCode
  induction fields with
  | nil => rfl
  | cons field fields ih => simpa [Instr.usesSlot] using ih

@[simp] theorem usesSlot_callInstr (name : String) : (callInstr name).usesSlot = false := by
  unfold callInstr builtin?
  split <;> rfl

theorem slotCode_loopCode (start : Nat) (condition body : List Instr) :
    slotCode (loopCode start condition body) = slotCode condition ++ slotCode body := by
  simp [loopCode, Instr.usesSlot]

/-- The instructions about slots in a branch. -/
def branchSlotCode (branch : List Instr × List Instr) : List Instr :=
  slotCode branch.1 ++ slotCode branch.2

/-- The slots that a chain of branches uses are those of its conditions and bodies. -/
theorem slotCode_chainCode (start exit : Nat) (branches : List (List Instr × List Instr)) :
    slotCode (chainCode start exit branches) = branches.flatMap branchSlotCode := by
  induction branches generalizing start with
  | nil => rfl
  | cons branch rest ih => simp [chainCode, Instr.usesSlot, ih, branchSlotCode]

theorem slotCode_withReturn (code : List Instr) : slotCode (withReturn code) = slotCode code := by
  rcases withReturn_cases code with ⟨-, heq⟩ | ⟨-, heq⟩
  · rw [heq]
  · rw [heq, slotCode_append]
    simp [Instr.usesSlot]

end

section
variable {layouts : Layouts} {scope : Scope}

/-- A scan goes on in the scope where its first part has ended. -/
theorem scan_append (u v : List Mention) :
    scan layouts scope (u ++ v) = (do
      let r ← scan layouts scope u
      let r' ← scan layouts r.2 v
      return (r.1 ++ r'.1, r'.2)) := by
  induction u generalizing scope with
  | nil => simp [scan]
  | cons m u ih => simp only [List.cons_append, scan, ih, bind_assoc, pure_bind, List.append_assoc]

theorem scan_single (m : Mention) :
    scan layouts scope [m] = (fun code => (code, m.move scope)) <$> m.emit layouts scope := by
  simp [scan]

theorem scan_cons (m : Mention) (v : List Mention) :
    scan layouts scope (m :: v) = (do
      let code ← m.emit layouts scope
      let r ← scan layouts (m.move scope) v
      return (code ++ r.1, r.2)) := rfl

/-! ### Expressions -/

mutual

/-- An expression uses the slots that a scan of its mentions finds, and fails as the scan does. -/
theorem scan_expr : ∀ e : Tree.Expr,
    scan layouts scope (exprMentions e) = (fun code => (slotCode code, scope)) <$> exprCode layouts scope e
  | .literal l => rfl
  | .path [] => rfl
  | .path (base :: rest) => by
    simp only [exprMentions, exprCode, List.cons_append, scan_cons, scan_append, scan_segment base, scan_segments rest,
      Mention.emit, Mention.move, bind_map_left, map_bind, map_pure, bind_assoc, pure_bind]
    simp [Instr.usesSlot]
  | .call name args => by
    simp only [exprMentions, exprCode, scan_args args, map_bind, map_pure]
    simp
  | .newArray type (.one length) => by
    simp only [exprMentions, exprCode, scan_expr length, map_bind, map_pure]
    simp [Instr.usesSlot]
  | .newArray type (.two rows columns) => by
    simp only [exprMentions, exprCode, scan_append, scan_expr rows, scan_expr columns, bind_map_left, map_bind, map_pure]
    simp [Instr.usesSlot]
  | .newStruct name => by
    simp only [exprMentions, exprCode, scan_single, Mention.emit, Mention.move, map_bind, map_pure]
    simp [slotCode_newStructCode]
  | .binary op left right => by
    simp only [exprMentions, exprCode, scan_append, scan_expr left, scan_expr right, bind_map_left, map_bind, map_pure]
    simp [Instr.usesSlot]
  | .not e => by
    simp only [exprMentions, exprCode, scan_expr e, map_bind, map_pure]
    simp [Instr.usesSlot]

theorem scan_args : ∀ args : List Tree.Expr,
    scan layouts scope (argsMentions args) = (fun code => (slotCode code, scope)) <$> argsCode layouts scope args
  | [] => rfl
  | e :: rest => by
    simp only [argsMentions, argsCode, scan_append, scan_expr e, scan_args rest, bind_map_left, map_bind, map_pure]
    simp

theorem scan_subscript : ∀ subscript : Tree.Subscript,
    scan layouts scope (subscriptMentions subscript) =
      (fun code => (slotCode code, scope)) <$> indicesCode layouts scope subscript
  | .one index => scan_expr index
  | .two row column => by
    simp only [subscriptMentions, indicesCode, scan_append, scan_expr row, scan_expr column, bind_map_left, map_bind,
      map_pure]
    simp

theorem scan_segment : ∀ segment : Tree.Segment,
    scan layouts scope (segmentMentions segment) =
      (fun code => (slotCode code, scope)) <$> elementCode layouts scope segment
  | .plain name => rfl
  | .indexed name subscript => by
    simp only [segmentMentions, elementCode, scan_subscript subscript, map_bind, map_pure]
    simp [Instr.usesSlot]

theorem scan_segments : ∀ segments : List Tree.Segment,
    scan layouts scope (segmentsMentions segments) =
      (fun code => (slotCode code, scope)) <$> fieldsCode layouts scope segments
  | [] => rfl
  | segment :: rest => by
    simp only [segmentsMentions, fieldsCode, scan_append, scan_segment segment, scan_segments rest, bind_map_left,
      map_bind, map_pure]
    simp [Instr.usesSlot]

end

/-! ### Assignments -/

theorem scan_setElement (subscript : Tree.Subscript) (value : Tree.Expr) :
    scan layouts scope (subscriptMentions subscript ++ exprMentions value) =
      (fun code => (slotCode code, scope)) <$> setElementCode layouts scope subscript value := by
  simp only [setElementCode, scan_append, scan_subscript, scan_expr, bind_map_left, map_bind, map_pure]
  simp [Instr.usesSlot]

theorem scan_setField (value : Tree.Expr) (segment : Tree.Segment) (rest : List Tree.Segment) :
    scan layouts scope (segmentsMentions (segment :: rest) ++ exprMentions value) =
      (fun code => (slotCode code, scope)) <$> setFieldCode layouts scope value segment rest := by
  induction rest generalizing segment with
  | nil =>
    cases segment with
    | plain name =>
      simp only [segmentsMentions, segmentMentions, setFieldCode, List.nil_append, scan_expr, map_bind, map_pure]
      simp [Instr.usesSlot]
    | indexed name subscript =>
      simp only [segmentsMentions, segmentMentions, setFieldCode, List.append_nil, scan_setElement, map_bind, map_pure]
      simp [Instr.usesSlot]
  | cons next rest ih =>
    rw [segmentsMentions, List.append_assoc, scan_append, scan_segment]
    simp only [setFieldCode, bind_map_left, ih, map_bind, map_pure]
    simp [Instr.usesSlot]

/-- An assignment looks up its variable before its value, as the scan does. -/
theorem scan_assign (a : Tree.Assignment) :
    scan layouts scope (assignMentions a) =
      (fun code => (slotCode code, scope)) <$> assignCode layouts scope a := by
  obtain ⟨target, value⟩ := a
  match target with
  | [] => rfl
  | [.plain name] =>
    simp only [assignMentions, assignCode, List.cons_append, scan_cons, scan_append, scan_expr, Mention.emit,
      Mention.move, bind_map_left, map_bind, map_pure]
    -- The variable has the same slot behind the value as before it.
    cases scope.slot name with
    | error e => rfl
    | ok slot => cases exprCode layouts scope value <;> simp [scan, Instr.usesSlot, bind, Except.bind, pure, Except.pure]
  | [.indexed name subscript] =>
    simp only [assignMentions, assignCode, segmentMentions, segmentsMentions, List.append_nil, List.cons_append, scan_cons,
      scan_setElement, Mention.emit, Mention.move, Tree.Segment.name, bind_map_left, map_bind, map_pure]
    simp [Instr.usesSlot]
  | base :: next :: rest =>
    simp only [assignMentions_through, List.cons_append, List.append_assoc, scan_cons, Mention.emit, Mention.move]
    rw [scan_append, scan_segment]
    simp only [assignCode, scan_setField, bind_map_left, map_bind, map_pure]
    simp [Instr.usesSlot]

/-! ### Statements -/

theorem scan_declare (d : Tree.Declaration) :
    scan layouts scope (declareMentions d) = (fun r => (slotCode r.1, r.2)) <$> declareCode layouts scope d := by
  simp only [declareMentions, declareCode, scan_append, scan_expr, scan_single, Mention.emit, Mention.move, bind_map_left,
    map_bind, map_pure]
  simp [Instr.usesSlot]

theorem scan_call (name : String) (args : List Tree.Expr) :
    scan layouts scope (argsMentions args) =
      (fun code => (slotCode code, scope)) <$> callCode layouts scope name args := by
  have hpop : slotCode (if name = "print" then [] else [.op .pop]) = [] := by split <;> rfl
  simp only [scan_args, callCode, map_bind, map_pure]
  simp [hpop]

/-- A block is scanned in a scope of its own. -/
theorem scan_block (u : List Mention) :
    scan layouts scope (block u) = (fun r => (r.1, r.2.leave)) <$> scan layouts scope.enter u := by
  rw [block, List.cons_append, scan_cons, scan_append]
  simp [scan_single, Mention.emit, Mention.move]

mutual

/-- A statement uses the slots that a scan of its mentions finds, leaves the same scope, and fails as the scan does. -/
theorem scan_stmt : ∀ (s : Tree.Stmt) (scope : Scope) (start : Nat),
    scan layouts scope (stmtMentions s) = (fun r => (slotCode r.1, r.2)) <$> stmtCode layouts scope start s
  | .declare d, scope, start => by
    rw [stmtMentions, stmtCode, scan_declare]
  | .assign a, scope, start => by
    rw [stmtMentions, stmtCode, scan_assign]
    simp
  | .call name args, scope, start => by
    rw [stmtMentions, stmtCode, scan_call name]
    simp
  | .choose first others otherwise, scope, start => by
    rw [stmtMentions, stmtCode, scan_append, scan_append, scan_branch first scope start]
    simp only [bind_map_left, bind_assoc, pure_bind, map_bind]
    refine bind_congr fun branch => ?_
    -- The indices only occur in jumps, which use no slot, so any of them will do.
    rw [scan_branches others branch.2 (start + chainLength [branch.1])]
    simp only [bind_map_left]
    refine bind_congr fun branches => ?_
    rw [scan_block, scan_stmts otherwise branches.2.enter (start + chainLength (branch.1 :: branches.1))]
    simp [slotCode_chainCode, Instr.usesSlot]
  | .loop condition body, scope, start => by
    rw [stmtMentions, stmtCode, scan_append, scan_expr]
    simp only [bind_map_left, map_bind]
    refine bind_congr fun code => ?_
    rw [scan_block, scan_stmts body scope.enter (start + code.length + 1)]
    simp [slotCode_loopCode]
  | .count init condition step body, scope, start => by
    rw [stmtMentions, stmtCode, scan_block, scan_append, scan_append, scan_append, scan_declare]
    simp only [bind_map_left, bind_assoc, pure_bind, map_bind, scan_expr]
    refine bind_congr fun init => bind_congr fun code => ?_
    rw [scan_block, scan_stmts body init.2.enter (start + init.1.length + code.length + 1)]
    simp only [bind_map_left]
    refine bind_congr fun body => ?_
    rw [scan_assign]
    simp [slotCode_loopCode]
  | .ret e, scope, start => by
    rw [stmtMentions, stmtCode, scan_expr]
    simp [Instr.usesSlot]

theorem scan_stmts : ∀ (stmts : List Tree.Stmt) (scope : Scope) (start : Nat),
    scan layouts scope (stmtsMentions stmts) = (fun r => (slotCode r.1, r.2)) <$> stmtsCode layouts scope start stmts
  | [], scope, start => rfl
  | s :: rest, scope, start => by
    rw [stmtsMentions, stmtsCode, scan_append, scan_stmt s scope start]
    simp only [bind_map_left, map_bind]
    refine bind_congr fun first => ?_
    rw [scan_stmts rest first.2 (start + first.1.length)]
    simp

theorem scan_branch : ∀ (b : Tree.Branch) (scope : Scope) (start : Nat),
    scan layouts scope (branchMentions b) = (fun r => (branchSlotCode r.1, r.2)) <$> branchCode layouts scope start b
  | .mk condition body, scope, start => by
    rw [branchMentions, branchCode, scan_append, scan_expr]
    simp only [bind_map_left, map_bind]
    refine bind_congr fun code => ?_
    rw [scan_block, scan_stmts body scope.enter (start + code.length + 1)]
    simp [branchSlotCode]

theorem scan_branches : ∀ (bs : List Tree.Branch) (scope : Scope) (start : Nat),
    scan layouts scope (branchesMentions bs) =
      (fun r => (r.1.flatMap branchSlotCode, r.2)) <$> branchesCode layouts scope start bs
  | [], scope, start => rfl
  | b :: rest, scope, start => by
    rw [branchesMentions, branchesCode, scan_append, scan_branch b scope start]
    simp only [bind_map_left, map_bind]
    refine bind_congr fun first => ?_
    rw [scan_branches rest first.2 (start + chainLength [first.1])]
    simp

end

/-! ### Functions -/

theorem scan_params (params : List Tree.Variable) (scope : Scope) :
    scan layouts scope (paramMentions params) =
      .ok ((List.range' scope.next params.length).map .store, params.foldl (fun s p => s.declare p.name) scope) := by
  induction params generalizing scope with
  | nil => rfl
  | cons p rest ih =>
    rw [paramMentions, List.map_cons, scan_cons]
    simp only [Mention.emit, Mention.move, pure_bind]
    rw [show rest.map (fun p => Mention.declares p.name) = paramMentions rest from rfl, ih, Scope.declare_next,
      List.length_cons, List.range'_succ, List.foldl_cons]
    rfl

/-- The slots of a function are found by one scan over its mentions. -/
theorem scan_function (f : Tree.Function) :
    Prod.fst <$> scan layouts Scope.start (functionMentions f) = slotCode <$> functionCode layouts f := by
  have hparams : slotCode (paramCode f.params) = paramCode f.params := by
    refine List.filter_eq_self.mpr fun i hi => ?_
    obtain ⟨slot, -, rfl⟩ := List.mem_map.mp hi
    rfl
  rw [functionMentions, scan_append, scan_params, functionCode]
  simp only [bind, Except.bind]
  rw [scan_stmts f.body _ f.params.length]
  unfold paramScope
  cases stmtsCode layouts (f.params.foldl (fun s p => s.declare p.name) Scope.start) f.params.length f.body with
  | error e => rfl
  | ok r =>
    simp only [Functor.map, Except.map, pure, Except.pure, slotCode_withReturn, slotCode_append, hparams]
    rw [paramCode, List.range_eq_range']
    rfl

/-! ### Where a scan stops -/

/-- The scope behind mentions. -/
def scopeAfter (scope : Scope) (mentions : List Mention) : Scope :=
  mentions.foldl Mention.move scope

theorem scan_cons_eq_ok_iff {m : Mention} {rest : List Mention} {r : List Instr × Scope} :
    scan layouts scope (m :: rest) = .ok r ↔
      ∃ code r', m.emit layouts scope = .ok code ∧ scan layouts (m.move scope) rest = .ok r' ∧ r = (code ++ r'.1, r'.2) := by
  rw [scan_cons, Except.bind_eq_ok_iff]
  refine exists_congr fun code => ?_
  rw [Except.bind_eq_ok_iff]
  constructor
  · rintro ⟨hcode, r', hr', heq⟩
    exact ⟨r', hcode, hr', (Except.pure_eq_ok_iff.mp heq).symm⟩
  · rintro ⟨r', hcode, hr', rfl⟩
    exact ⟨hcode, r', hr', rfl⟩

theorem scan_cons_eq_error_iff {m : Mention} {rest : List Mention} {e : Error} :
    scan layouts scope (m :: rest) = .error e ↔
      m.emit layouts scope = .error e ∨
        ∃ code, m.emit layouts scope = .ok code ∧ scan layouts (m.move scope) rest = .error e := by
  rw [scan_cons, Except.bind_eq_error_iff]
  refine or_congr_right (exists_congr fun code => and_congr_right fun _ => ?_)
  rw [Except.bind_eq_error_iff]
  constructor
  · rintro (h | ⟨r, -, h⟩)
    · exact h
    · cases h
  · exact Or.inl

/-- A scan succeeds if and only if every mention can be resolved in the scope in front of it. -/
theorem scan_eq_ok_iff {mentions : List Mention} :
    (∃ r, scan layouts scope mentions = .ok r) ↔
      ∀ before m behind, mentions = before ++ m :: behind → ∃ code, m.emit layouts (scopeAfter scope before) = .ok code := by
  induction mentions generalizing scope with
  | nil => simp [scan, pure, Except.pure]
  | cons m rest ih =>
    constructor
    · rintro ⟨r, hr⟩ before m' behind heq
      obtain ⟨code, r', hcode, hr', -⟩ := scan_cons_eq_ok_iff.mp hr
      rcases List.cons_eq_append_iff.mp heq with ⟨rfl, hsame⟩ | ⟨before, rfl, hrest⟩
      · obtain ⟨rfl, -⟩ := List.cons.inj hsame
        exact ⟨code, hcode⟩
      · exact ih.mp ⟨r', hr'⟩ before m' behind hrest
    · intro h
      obtain ⟨code, hcode⟩ := h [] m rest rfl
      obtain ⟨r, hr⟩ := ih.mpr fun before m' behind heq => h (m :: before) m' behind (by rw [heq]; rfl)
      exact ⟨_, scan_cons_eq_ok_iff.mpr ⟨code, r, hcode, hr, rfl⟩⟩

/-- A scan fails at the first mention that is wrong. -/
theorem scan_eq_error_iff {mentions : List Mention} {e : Error} :
    scan layouts scope mentions = .error e ↔
      ∃ before m behind, mentions = before ++ m :: behind ∧ (∃ r, scan layouts scope before = .ok r) ∧
        m.emit layouts (scopeAfter scope before) = .error e := by
  induction mentions generalizing scope with
  | nil => simp [scan, pure, Except.pure]
  | cons m rest ih =>
    rw [scan_cons_eq_error_iff]
    constructor
    · rintro (herror | ⟨code, hcode, herror⟩)
      · exact ⟨[], m, rest, rfl, ⟨_, rfl⟩, herror⟩
      · obtain ⟨before, m', behind, rfl, ⟨r, hr⟩, herror⟩ := ih.mp herror
        exact ⟨m :: before, m', behind, rfl, ⟨_, scan_cons_eq_ok_iff.mpr ⟨code, r, hcode, hr, rfl⟩⟩, herror⟩
    · rintro ⟨before, m', behind, heq, ⟨r, hr⟩, herror⟩
      rcases List.cons_eq_append_iff.mp heq with ⟨rfl, hsame⟩ | ⟨before, rfl, rfl⟩
      · obtain ⟨rfl, -⟩ := List.cons.inj hsame
        exact Or.inl herror
      · obtain ⟨code, r', hcode, hr', -⟩ := scan_cons_eq_ok_iff.mp hr
        exact Or.inr ⟨code, hcode, ih.mpr ⟨before, m', behind, rfl, ⟨r', hr'⟩, herror⟩⟩

end
end Scoping
end Bytecode
