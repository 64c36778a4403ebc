import Bytecode.Proofs.Correctness.Expr
import Bytecode.Proofs.Lowering.Control
import Bytecode.Proofs.Lowering.Scope

/-! The code of a statement does what the statement does: it starts and ends without operands, and goes on behind itself
    or returns. Loops are followed round by round; each round takes at least the step of its jump back. -/

namespace Bytecode.Correctness
open Evaluation Lowering

/-- A frame that is about to execute code at an index, without operands. -/
structure Ready (k : Setting) (scope : Scope) (env : Env) (start : Nat) (code : List Instr) (f : Frame) : Prop where
  pc : f.pc = start
  placed : Placed f.function.code.toList start code
  frames : k.Frames scope env f
  stack : f.stack = []

/-- A frame has gone on to an index, with slots that hold an environment. -/
def GoesOn (f : Frame) (callers : List Frame) (pc : Nat) (scope : Scope) (env : Env) (frames : List Frame) : Prop :=
  ∃ locals, Holds scope locals env ∧ frames = { f with pc := pc, locals := locals } :: callers

/-- The frames after statements: the frame has gone on, or it has returned a value. -/
def After (f : Frame) (callers : List Frame) (pc : Nat) (scope : Scope) : Flow → List Frame → Prop
  | .next env, frames => GoesOn f callers pc scope env frames
  | .returned v, frames => frames = deliver v callers

/-- Code at an index that does what statements do, and goes on at a further index. -/
def Executes (k : Setting) (scope : Scope) (env : Env) (start : Nat) (code : List Instr) (x : Effect Flow) (stop : Nat)
    (scope' : Scope) : Prop :=
  ∀ (f : Frame) (callers : List Frame) (w : World), Ready k scope env start code f →
    Meets k.chunk k.context.rounds (stateOf w (f :: callers)) (x w) (After f callers stop scope')

section
variable {k : Setting} {scope scope' scope₁ : Scope} {env : Env} {start stop : Nat} {code code' : List Instr} {f : Frame}
  {callers : List Frame} {x : Effect Flow} {w : World}

namespace Ready

theorem code_at (h : Ready k scope env start code f) : At f code := by
  unfold At
  rw [h.pc]
  exact h.placed

theorem left (h : Ready k scope env start (code ++ code') f) : Ready k scope env start code f :=
  ⟨h.pc, h.placed.left, h.frames, h.stack⟩

/-- Where a frame has gone on, it is ready for the code that stands there. -/
theorem goOn (h : Ready k scope env start code f) {pc : Nat} (hcode : Placed f.function.code.toList pc code')
    {locals : List Value} {env' : Env} (hlocals : Holds scope' locals env') :
    Ready k scope' env' pc code' { f with pc := pc, locals := locals } :=
  ⟨rfl, hcode, ⟨h.frames.name, hlocals⟩, h.stack⟩

theorem of_blocks (h : Ready k scope env start code f) (hblocks : scope'.blocks = scope.blocks) :
    Ready k scope' env start code f :=
  ⟨h.pc, h.placed, ⟨h.frames.name, h.frames.holds.of_blocks hblocks⟩, h.stack⟩

theorem enter (h : Ready k scope env start code f) : Ready k scope.enter env.enter start code f :=
  ⟨h.pc, h.placed, ⟨h.frames.name, h.frames.holds.enter⟩, h.stack⟩

end Ready

theorem After.of_blocks {flow : Flow} {frames : List Frame} (h : After f callers stop scope flow frames)
    (hblocks : scope'.blocks = scope.blocks) : After f callers stop scope' flow frames := by
  cases flow with
  | next env =>
    obtain ⟨locals, hlocals, hframes⟩ := h
    exact ⟨locals, hlocals.of_blocks hblocks, hframes⟩
  | returned v => exact h

namespace Executes

/-- Only the variables in scope matter, not how many slots have been given out. -/
theorem of_blocks (h : Executes k scope env start code x stop scope') {scope₁ scope₁' : Scope}
    (hblocks : scope.blocks = scope₁.blocks) (hblocks' : scope₁'.blocks = scope'.blocks) :
    Executes k scope₁ env start code x stop scope₁' := by
  intro f callers w hready
  exact (h f callers w (hready.of_blocks hblocks)).mono fun flow frames hafter => hafter.of_blocks hblocks'

theorem andThen {mid : Nat} (h : Executes k scope env start code x mid scope₁) (hmid : mid = start + code.length)
    {y : Env → Effect Flow} (hy : ∀ env₁, Executes k scope₁ env₁ mid code' (y env₁) stop scope') :
    Executes k scope env start (code ++ code') (x >>= fun flow => flow.andThen y) stop scope' := by
  intro f callers w hready
  refine Meets.bind (h f callers w hready.left) fun flow w' frames _ hafter => ?_
  cases flow with
  | next env₁ =>
    obtain ⟨locals, hlocals, rfl⟩ := hafter
    exact hy env₁ _ callers w' (hready.goOn (hmid ▸ hready.placed.right) hlocals)
  | returned v => exact Meets.pure hafter

/-- A block: its variables are gone behind it. -/
theorem block (h : Executes k scope.enter env.enter start code x stop scope') :
    Executes k scope env start code (x >>= fun flow => flow.leave) stop scope'.leave := by
  intro f callers w hready
  refine Meets.bind (h f callers w hready.enter) fun flow w' frames _ hafter => ?_
  cases flow with
  | next env₁ =>
    obtain ⟨locals, hlocals, hframes⟩ := hafter
    exact Meets.pure ⟨locals, hlocals.leave, hframes⟩
  | returned v => exact Meets.pure hafter

theorem of_does (h : Does k scope env code x [] (fun _ => [])) (hx : ∀ flow, Yields x flow → flow = .next env) :
    Executes k scope env start code x (start + code.length) scope := by
  intro f callers w hready
  have hmeets := h f callers w [] hready.code_at hready.frames hready.stack
  refine hmeets.yields.mono fun flow frames hframes => ?_
  obtain ⟨hframes, hyields⟩ := hframes
  rw [hx flow ⟨w, hyields⟩]
  refine ⟨f.locals, hready.frames.holds, ?_⟩
  rw [hframes, ← hready.pc]
  unfold Frame.moved
  rw [hready.stack]
  rfl

theorem nop (h : Executes k scope env start code x stop scope')
    (hstop : stop = start + code.length) :
    Executes k scope env start (code ++ [.op .nop]) x (stop + 1) scope' := by
  intro f callers w hready
  refine (h f callers w hready.left).more fun flow w' frames hafter => ?_
  cases flow with
  | next env₁ =>
    obtain ⟨locals, hlocals, rfl⟩ := hafter
    have hnop : f.function.code[stop]? = some (.op .nop) := by
      have := hready.placed.right.head
      rw [hstop]
      simpa using this
    exact ⟨_, .single (Meets.nop hnop), locals, hlocals, rfl⟩
  | returned v => exact ⟨frames, .refl _, hafter⟩

end Executes

/-! ### Assignments -/

theorem ofOption_bind {α β : Type} {o : Option α} {a : α} (h : o = some a) (y : α → Effect β) :
    (Effect.ofOption o >>= y) = y a := by
  rw [h]
  rfl

theorem meets_store {slot : Nat} {v : Value} {env' : Env} (hready : Ready k scope env start code f)
    (hcode : Placed f.function.code.toList stop [.store slot])
    (hlocals : Holds scope' (storeSlot v slot f.locals) env') :
    Meets k.chunk k.context.rounds (stateOf w ({ f with pc := stop, stack := [v] } :: callers))
      ((Pure.pure (.next env') : Effect Flow) w) (After f callers (stop + 1) scope') := by
  have hstore : f.function.code[stop]? = some (.store slot) := by simpa using hcode.head
  have hnext : State.Next k.chunk (stateOf w ({ f with pc := stop, stack := [v] } :: callers)) _ :=
    Meets.store hstore rfl
  refine Meets.of_next hnext (Meets.pure ⟨_, hlocals, ?_⟩)
  simp [Frame.moved, hready.stack]

theorem assignCases (hnumbered : scope.WellNumbered) (env : Env) :
    AssignCases scope
      (fun e code => exprCalls k.context.program e = true →
        Does k scope env code (exprValue k.context env e) [] (fun v => [v]))
      (fun subscript code => subscriptCalls k.context.program subscript = true →
        Does k scope env code (indicesValues k.context env subscript) [] indexOperands)
      (fun segment code => segmentCalls k.context.program segment = true →
        ∀ v, Does k scope env code (elementValue k.context env v segment) [v] (fun v => [v]))
      (fun a code => assignCalls k.context.program a = true → ∀ start,
        Executes k scope env start code (assign k.context env a >>= fun env' => Pure.pure (.next env'))
          (start + code.length) scope)
      (fun subscript value code => subscriptCalls k.context.program subscript = true →
        exprCalls k.context.program value = true →
        ∀ v, Does k scope env code (assignElement k.context env v subscript value) [v] (fun _ => []))
      (fun value segment rest code => segmentsCalls k.context.program (segment :: rest) = true →
        exprCalls k.context.program value = true →
        ∀ v, Does k scope env code (assignField k.context env value v segment rest) [v] (fun _ => [])) where
  var {name value slot code} hslot hvalue hcalls start := by
    simp only [assignCalls, Bool.and_eq_true] at hcalls
    intro f callers w hready
    -- The slot is there before the value is known, and stays there.
    obtain ⟨v, -, henv⟩ := hready.frames.holds.find? hslot
    simp only [assign]
    rw [ofOption_bind henv, bind_assoc]
    refine Meets.bind (hvalue hcalls.2 f callers w [] hready.left.code_at hready.frames hready.stack) ?_
    rintro x w' frames - rfl
    have hlocals := hready.frames.holds.assign hnumbered hslot x
    rw [pure_bind, List.length_append, ← Nat.add_assoc, Frame.moved, hready.pc]
    exact meets_store hready hready.placed.right hlocals
  element {name subscript value slot code} hslot hset hcalls start := by
    simp only [assignCalls, segmentsCalls, segmentCalls, Bool.and_eq_true] at hcalls
    simp only [assign, bind_assoc, pure_bind]
    refine Executes.of_does ?_ ?_
    · exact (Does.load hslot).bind fun v _ => (hset hcalls.1.1 hcalls.2 v).map fun _ _ => rfl
    · intro flow hflow
      obtain ⟨v, -, hv⟩ := hflow.bind
      obtain ⟨u, -, hu⟩ := hv.bind
      exact hu.pure.symm
  through {base next rest value slot element code} hslot hbase hset hcalls start := by
    simp only [assignCalls, segmentsCalls, Bool.and_eq_true] at hcalls
    simp only [assign, bind_assoc, pure_bind]
    refine Executes.of_does ?_ ?_
    · exact (Does.load hslot).bind fun v _ => (hbase hcalls.1.1 v).bind fun v' _ =>
        (hset (by simp only [segmentsCalls, hcalls.1.2, Bool.and_self]) hcalls.2 v').map fun _ _ => rfl
    · intro flow hflow
      obtain ⟨v, -, hv⟩ := hflow.bind
      obtain ⟨v', -, hv'⟩ := hv.bind
      obtain ⟨u, -, hu⟩ := hv'.bind
      exact hu.pure.symm
  setElement {subscript value code code'} hindices hvalue hcalls hcalls' v := by
    rw [assignElement, List.append_assoc]
    refine ((hindices hcalls).frame [v]).bind fun indices hyields => ?_
    exact ((hvalue hcalls').frame _).bind fun x _ => does_setElement hyields v x
  setField {name value code} hvalue hcalls hcalls' v := by
    rw [assignField]
    refine ((hvalue hcalls').frame [v]).bind fun x _ => ?_
    rw [setField]
    exact Does.compute fun heap rest => by simp [Operation.apply]
  setFieldElement {name subscript value code} hset hcalls hcalls' v := by
    simp only [segmentsCalls, segmentCalls, Bool.and_eq_true] at hcalls
    rw [assignField]
    exact (does_getField v name).bind fun v' _ => hset hcalls.1 hcalls' v'
  next {segment next rest value element code} hsegment hset hcalls hcalls' v := by
    rw [segmentsCalls, Bool.and_eq_true] at hcalls
    rw [assignField, List.cons_append]
    exact (does_getField v segment.name).bind fun v₁ _ =>
      (hsegment hcalls.1 v₁).bind fun v₂ _ => hset hcalls.2 hcalls' v₂

theorem executes_assign (hk : k.Calls) (hnumbered : scope.WellNumbered) {a : Tree.Assignment} {code : List Instr}
    (hcode : assignCode k.context.layouts scope a = .ok code) (hcalls : assignCalls k.context.program a = true)
    (env : Env) (start : Nat) :
    Executes k scope env start code (assign k.context env a >>= fun env' => Pure.pure (.next env')) (start + code.length)
      scope :=
  AssignCases.assign (exprCases hk) (assignCases hnumbered env) hcode hcalls start

/-! ### Conditions, branches and loops -/

/-- Code that tests a condition and goes on behind itself, or at an index if the condition does not hold. -/
def Tests (k : Setting) (scope : Scope) (env : Env) (start : Nat) (code : List Instr) (x : Effect Bool) (target : Nat) :
    Prop :=
  ∀ (f : Frame) (callers : List Frame) (w : World), Ready k scope env start (code ++ [.jumpUnless target]) f →
    Meets k.chunk k.context.rounds (stateOf w (f :: callers)) (x w)
      (fun b frames => frames = { f with pc := if b then start + code.length + 1 else target } :: callers)

theorem tests_condition {e : Tree.Expr} (h : Does k scope env code (exprValue k.context env e) [] (fun v => [v]))
    (start target : Nat) : Tests k scope env start code (condition k.context env e) target := by
  intro f callers w hready
  unfold condition
  refine Meets.bind (h f callers w [] hready.left.code_at hready.frames hready.stack) ?_
  rintro v w' frames - rfl
  have hjump := hready.code_at.right [v] |>.head
  rw [← hready.frames.name]
  refine (Meets.jumpUnless hjump rfl).mono ?_
  rintro b frames rfl
  simp [Frame.moved, hready.pc, hready.stack]

namespace Executes

theorem jump (h : Executes k scope env start code x (start + code.length) scope') :
    Executes k scope env start (code ++ [.jump stop]) x stop scope' := by
  intro f callers w hready
  refine (h f callers w hready.left).more fun flow w' frames hafter => ?_
  cases flow with
  | next env₁ =>
    obtain ⟨locals, hlocals, rfl⟩ := hafter
    have hjump : f.function.code[start + code.length]? = some (.jump stop) := by
      simpa using hready.placed.right.head
    exact ⟨_, .single (Meets.jump hjump), locals, hlocals, rfl⟩
  | returned v => exact ⟨frames, .refl _, hafter⟩

/-- A branch: its body if its condition holds, and what stands behind it otherwise. -/
theorem branch {test : Effect Bool} {body rest : List Instr} {y otherwise : Effect Flow}
    (htest : Tests k scope env start code test (start + code.length + body.length + 2))
    (hbody : Executes k scope env (start + code.length + 1) body y (start + code.length + 1 + body.length) scope')
    (hrest : Executes k scope env (start + code.length + body.length + 2) rest otherwise stop scope') :
    Executes k scope env start
      (code ++ .jumpUnless (start + code.length + body.length + 2) :: body ++ .jump stop :: rest)
      (test >>= fun holds => if holds then y else otherwise) stop scope' := by
  intro f callers w hready
  obtain ⟨hplaced, hplacedBody, hjump, hplacedRest⟩ := hready.placed.around
  refine Meets.bind (htest f callers w ⟨hready.pc, hplaced, hready.frames, hready.stack⟩) ?_
  rintro b w' frames - rfl
  cases b with
  | true =>
    have hplacedJump : Placed f.function.code.toList (start + code.length + 1) (body ++ [.jump stop]) :=
      Placed.append_iff.mpr ⟨hplacedBody, hjump, trivial⟩
    exact hbody.jump _ callers w' (hready.goOn hplacedJump hready.frames.holds)
  | false => exact hrest _ callers w' (hready.goOn hplacedRest hready.frames.holds)

/-- A loop. A round that is not the last one ends in a jump back, so that as many rounds take at least as many steps. -/
theorem loop {test : Env → Effect Bool} {body : List Instr} {y : Env → Effect Flow}
    (htest : ∀ env, Tests k scope env start code (test env) (start + code.length + body.length + 2))
    (hbody : ∀ env, Executes k scope env (start + code.length + 1) body (y env)
      (start + code.length + 1 + body.length) scope) (env : Env) :
    Executes k scope env start (loopCode start code body) (repeatWhile test y k.context.rounds env)
      (start + (loopCode start code body).length) scope := by
  have hstop : start + (loopCode start code body).length = start + code.length + body.length + 2 + 1 := by
    simp only [loopCode, List.length_append, List.length_cons, List.length_nil]
    omega
  -- The number of rounds left over is a bound for the steps to come, and is at most what the setting asks for.
  have hrounds : ∀ rounds ≤ k.context.rounds, ∀ (env : Env) (f : Frame) (callers : List Frame) (w : World),
      Ready k scope env start (loopCode start code body) f →
      Meets k.chunk rounds (stateOf w (f :: callers)) (repeatWhile test y rounds env w)
        (After f callers (start + (loopCode start code body).length) scope) := by
    intro rounds
    induction rounds with
    | zero =>
      intro _ env f callers w _
      exact ⟨_, .refl _⟩
    | succ rounds ih =>
      intro hle env f callers w hready
      obtain ⟨hplaced, hplacedBody, hjump, hplacedNop⟩ := hready.placed.around
      have hmeets := htest env f callers w ⟨hready.pc, hplaced, hready.frames, hready.stack⟩
      unfold repeatWhile
      refine Meets.bind (hmeets.of_le hle) ?_
      rintro b w' frames - rfl
      cases b with
      | true =>
        have hround := hbody env _ callers w' (hready.goOn hplacedBody hready.frames.holds)
        refine Meets.bind (hround.of_le hle) fun flow w'' frames _ hafter => ?_
        cases flow with
        | next env₁ =>
          obtain ⟨locals, hlocals, rfl⟩ := hafter
          refine Meets.succ (Meets.jump (by simpa using hjump)) ?_
          exact ih (Nat.le_of_succ_le hle) env₁ _ callers w'' (hready.goOn hready.placed hlocals)
        | returned v => exact Meets.pure hafter
      | false =>
        have hnop : f.function.code[start + code.length + body.length + 2]? = some (.op .nop) := by
          simpa using hplacedNop.head
        refine Meets.of_next (Meets.nop hnop) (Meets.pure ⟨f.locals, hready.frames.holds, ?_⟩)
        rw [hstop]
        rfl
  intro f callers w hready
  exact hrounds _ (Nat.le_refl _) env f callers w hready

end Executes

/-! ### Statements -/

theorem does_callAlone (hk : k.Calls) {name : String} {args : List Value}
    (harity : ∀ n, arity? k.context.program name = some n → n = args.length) :
    Does k scope env (callInstr name :: if name = "print" then [] else [.op .pop]) (callAlone k.context name args)
      args.reverse (fun _ => []) := by
  unfold callAlone
  by_cases hname : name = "print"
  · subst hname
    obtain ⟨v, rfl⟩ := List.length_eq_one_iff.mp (harity 1 rfl).symm
    rw [if_pos rfl, if_pos rfl]
    intro f callers w rest hat hf hstack
    rw [← hf.name]
    exact Meets.write hat.head hstack
  · rw [if_neg hname, if_neg hname]
    have hpop : ∀ v : Value, Does k scope env [.op .pop] (Pure.pure ()) [v] (fun _ => []) := fun v =>
      Does.pop (Does.pure rfl)
    exact (does_callValue hk hname harity).bind fun v _ => hpop v

theorem executes_declare (hk : k.Calls) (hnumbered : scope.WellNumbered) {d : Tree.Declaration} {code : List Instr}
    (hcode : exprCode k.context.layouts scope d.init = .ok code)
    (hcalls : exprCalls k.context.program d.init = true) (env : Env) (start : Nat) :
    Executes k scope env start (code ++ [.store scope.next])
      (exprValue k.context env d.init >>= fun v => Pure.pure (.next (env.declare d.var.name v)))
      (start + (code ++ [Instr.store scope.next]).length) (scope.declare d.var.name) := by
  intro f callers w hready
  refine Meets.bind (does_expr hk hcode hcalls env f callers w [] hready.left.code_at hready.frames hready.stack) ?_
  rintro v w' frames - rfl
  have hlocals := hready.frames.holds.declare hnumbered d.var.name v
  rw [List.length_append, ← Nat.add_assoc, Frame.moved, hready.pc]
  exact meets_store hready hready.placed.right hlocals

theorem stmtCases (hk : k.Calls) :
    StmtCases k.context.layouts
      (fun scope start s code scope' => stmtCalls k.context.program s = true → scope.WellNumbered → ∀ env,
        Executes k scope env start code (stmtFlow k.context env s) (start + code.length) scope')
      (fun scope start stmts code scope' => stmtsCalls k.context.program stmts = true → scope.WellNumbered → ∀ env,
        Executes k scope env start code (stmtsFlow k.context env stmts) (start + code.length) scope')
      (fun scope start b branch _ => branchCalls k.context.program b = true → scope.WellNumbered →
        ∀ env rest otherwise stop, Executes k scope env (start + chainLength [branch]) rest otherwise stop scope →
          Executes k scope env start (chainCode start stop [branch] ++ rest) (branchFlow k.context env b otherwise) stop
            scope)
      (fun scope start bs branches _ => branchesCalls k.context.program bs = true → scope.WellNumbered →
        ∀ env rest otherwise stop, Executes k scope env (start + chainLength branches) rest otherwise stop scope →
          Executes k scope env start (chainCode start stop branches ++ rest) (branchesFlow k.context env bs otherwise)
            stop scope) where
  declare {scope start d code} hinit hcalls hnumbered env := by
    rw [stmtCalls] at hcalls
    rw [stmtFlow]
    exact executes_declare hk hnumbered hinit hcalls env start
  assign {scope start a code} ha hcalls hnumbered env := by
    rw [stmtCalls] at hcalls
    rw [stmtFlow]
    exact executes_assign hk hnumbered ha hcalls env start
  call {scope start name args code} hargs hcalls hnumbered env := by
    rw [stmtCalls, Bool.and_eq_true] at hcalls
    rw [stmtFlow]
    refine Executes.of_does ?_ ?_
    · refine (does_args hk hargs hcalls.2 env).bind fun vs hvs => ?_
      refine (does_callAlone hk fun n hn => ?_).map fun _ _ => rfl
      rw [yields_args hvs]
      exact rightArity_eq hcalls.1 n hn
    · intro flow hflow
      obtain ⟨vs, -, hvs⟩ := hflow.bind
      obtain ⟨u, -, hu⟩ := hvs.bind
      exact hu.pure.symm
  choose {scope scope₁ scope₂ scope₃ start first others otherwise branch branches code} hfirstCode hfirst hothersCode
      hothers hotherwiseCode hotherwise hcalls hnumbered env := by
    rw [stmtCalls, Bool.and_eq_true, Bool.and_eq_true] at hcalls
    have hkeeps := branchCode_keeps hfirstCode
    have hkeeps' := branchesCode_keeps hothersCode
    have hblock := (stmtsCode_grows hotherwiseCode).block
    have hnumbered₁ := hkeeps.numbered hnumbered
    have hnumbered₂ := hkeeps'.numbered hnumbered₁
    -- Each part runs on the environment of the whole, since a block leaves the blocks around it alone.
    have hlast := (hotherwise hcalls.2 hnumbered₂.enter env.enter).block
    rw [chainLength_cons, ← Nat.add_assoc] at hlast
    have hbranches := hothers hcalls.1.2 hnumbered₁ env code _ _
      (hlast.of_blocks hkeeps'.blocks (hkeeps'.trans hblock).blocks.symm)
    have hchain := hfirst hcalls.1.1 hnumbered env _ _ _
      (hbranches.of_blocks hkeeps.blocks hkeeps.blocks.symm)
    rw [← List.append_assoc, ← chainCode_cons] at hchain
    have hlength : (chainCode start (start + chainLength [branch] + chainLength branches + code.length)
        (branch :: branches) ++ code).length = chainLength [branch] + chainLength branches + code.length := by
      rw [List.length_append, length_chainCode, chainLength_cons]
    have hnop := (hchain.of_blocks rfl ((hkeeps.trans hkeeps').trans hblock).blocks).nop (by rw [hlength]; omega)
    rw [stmtFlow, chainLength_cons, ← Nat.add_assoc, List.length_append, hlength]
    simpa [Nat.add_assoc] using hnop
  loop {scope scope₁ start condition body code code'} hcondition hbodyCode hbody hcalls hnumbered env := by
    rw [stmtCalls, Bool.and_eq_true] at hcalls
    rw [stmtFlow]
    have hkeeps := (stmtsCode_grows hbodyCode).block
    have hloop := Executes.loop
      (fun env => tests_condition (does_expr hk hcondition hcalls.1 env) start _)
      (fun env => (hbody hcalls.2 hnumbered.enter env.enter).block.of_blocks rfl hkeeps.blocks.symm) env
    exact hloop.of_blocks rfl hkeeps.blocks
  count {scope scope₁ start init condition step body icode code code' scode} hinit hcondition hbodyCode hbody hstep
      hcalls hnumbered env := by
    simp only [stmtCalls, Bool.and_eq_true] at hcalls
    obtain ⟨⟨⟨hinitCalls, htestCalls⟩, hstepCalls⟩, hbodyCalls⟩ := hcalls
    have hkeeps := (stmtsCode_grows hbodyCode).block
    have hdeclared := hnumbered.enter.declare init.var.name
    -- One round is the body and then the step, in the scope that has the counter.
    have hround : ∀ env : Env, Executes k (scope.enter.declare init.var.name) env
        (start + (icode.length + 1) + code.length + 1) (code' ++ scode)
        (stmtsFlow k.context env.enter body >>= fun flow => flow.leave >>= fun flow => flow.andThen fun env =>
          assign k.context env step >>= fun env => Pure.pure (.next env))
        (start + (icode.length + 1) + code.length + 1 + (code' ++ scode).length)
        (scope.enter.declare init.var.name) := by
      intro env
      rw [← bind_assoc, List.length_append, ← Nat.add_assoc _ code'.length]
      exact ((hbody hbodyCalls hdeclared.enter env.enter).block.andThen rfl fun env₁ =>
        executes_assign hk (hkeeps.numbered hdeclared) hstep hstepCalls env₁ _).of_blocks rfl hkeeps.blocks.symm
    have hloop := Executes.loop (fun env => tests_condition (does_expr hk hcondition htestCalls env) _ _) hround
    have hdeclare := executes_declare hk hnumbered.enter hinit hinitCalls env.enter start
    have hall := (hdeclare.andThen rfl fun env₁ => by rw [List.length_append]; exact hloop env₁).block
    have hblocks : scope₁.leave.leave.blocks = (scope.enter.declare init.var.name).leave.blocks :=
      congrArg List.tail hkeeps.blocks
    have hend := hall.of_blocks rfl hblocks
    rw [stmtFlow, List.length_append, List.length_append,
      ← Nat.add_assoc start (icode.length + [Instr.store scope.next].length)]
    simp only [bind_assoc, pure_bind] at hend
    exact hend
  ret {scope start e code} he hcalls hnumbered env f callers w hready := by
    rw [stmtCalls] at hcalls
    rw [stmtFlow]
    refine Meets.bind
      (does_expr hk he hcalls env f callers w [] hready.left.code_at hready.frames hready.stack) ?_
    rintro v w' frames - rfl
    have hret := (hready.code_at.right [v]).head
    exact Meets.of_next (Meets.ret hret rfl) (Meets.pure rfl)
  none scope start _ _ env f callers w hready := by
    rw [stmtsFlow]
    exact Meets.pure ⟨f.locals, hready.frames.holds, by rw [← hready.pc]; rfl⟩
  more {scope scope₁ scope₂ start s rest code code'} hsCode hs _ hrest hcalls hnumbered env := by
    rw [stmtsCalls, Bool.and_eq_true] at hcalls
    rw [stmtsFlow, List.length_append, ← Nat.add_assoc]
    have hnumbered₁ := (stmtCode_grows hsCode).numbered hnumbered
    exact (hs hcalls.1 hnumbered env).andThen rfl fun env₁ => hrest hcalls.2 hnumbered₁ env₁
  branch {scope scope₁ start condition body code code'} hcondition hbodyCode hbody hcalls hnumbered env rest otherwise stop
      hrest := by
    rw [branchCalls, Bool.and_eq_true] at hcalls
    rw [branchFlow]
    have hkeeps := (stmtsCode_grows hbodyCode).block
    have hthen := (hbody hcalls.2 hnumbered.enter env.enter).block.of_blocks rfl hkeeps.blocks.symm
    have htarget : start + chainLength [(code, code')] = start + code.length + code'.length + 2 := by
      simp [chainLength, Nat.add_assoc]
    rw [htarget] at hrest
    have hbranch := Executes.branch (tests_condition (does_expr hk hcondition hcalls.1 env) start _) hthen hrest
    simpa [chainCode] using hbranch
  noBranches scope start _ _ env rest otherwise stop hrest := by
    rw [branchesFlow]
    exact hrest
  branches {scope scope₁ scope₂ start b rest branch branches} hbCode hb _ hrest hcalls hnumbered env code otherwise stop
      hotherwise := by
    rw [branchesCalls, Bool.and_eq_true] at hcalls
    rw [branchesFlow, chainCode_cons, List.append_assoc]
    have hkeeps := branchCode_keeps hbCode
    refine hb hcalls.1 hnumbered env _ _ stop ?_
    rw [chainLength_cons, ← Nat.add_assoc] at hotherwise
    have hbranches := hrest hcalls.2 (hkeeps.numbered hnumbered) env code otherwise stop
      (hotherwise.of_blocks hkeeps.blocks.symm hkeeps.blocks)
    exact hbranches.of_blocks hkeeps.blocks hkeeps.blocks.symm

end

end Bytecode.Correctness
