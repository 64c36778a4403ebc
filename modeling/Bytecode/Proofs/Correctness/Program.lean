import Bytecode.Proofs.Correctness.Arguments
import Bytecode.Proofs.Correctness.Stmt

/-! Lowered programs do what direct evaluation of the program does: they end in the same way, with the same heap and the
    same streams, and one goes on forever if the other does. -/

namespace Bytecode.Correctness
open Evaluation Lowering

/-! ### Functions -/

/-- Statements that end in a return never go on behind themselves. -/
theorem not_yields_next {k : Context} {stmts : List Tree.Stmt} {e : Tree.Expr} (hlast : stmts.getLast? = some (.ret e))
    {env env' : Env} : ¬Yields (stmtsFlow k env stmts) (.next env') := by
  induction stmts generalizing env with
  | nil => cases hlast
  | cons s rest ih =>
    intro h
    rw [stmtsFlow] at h
    obtain ⟨flow, hflow, hrest⟩ := h.bind
    cases rest with
    | nil =>
      obtain rfl : s = .ret e := by simpa using hlast
      rw [stmtFlow] at hflow
      obtain ⟨v, -, hv⟩ := hflow.bind
      obtain rfl := hv.pure
      cases hrest.pure
    | cons s' rest =>
      cases flow with
      | next env₁ => exact ih (by simpa [List.getLast?_cons] using hlast) hrest
      | returned v => cases hrest.pure

/-- Where control gets behind the body of a function, null is returned; it never gets there if the body ends in a
return. -/
theorem behind_body {layouts : Layouts} {f : Tree.Function} {body : List Instr} {scope : Scope}
    (hbody : stmtsCode layouts (paramScope f.params) f.params.length f.body = .ok (body, scope)) :
    (∃ e, f.body.getLast? = some (.ret e)) ∨
      Placed (withReturn (paramCode f.params ++ body)) (f.params.length + body.length) [.op (.push .null), .ret] := by
  rcases withReturn_cases (paramCode f.params ++ body) with ⟨hlast, heq⟩ | ⟨-, heq⟩
  · refine Or.inl ?_
    cases body with
    | nil =>
      rw [List.append_nil] at hlast
      exact absurd hlast (paramCode_straight f.params).getLast?_ne
    | cons i body =>
      rw [List.getLast?_append_of_ne_nil _ (List.cons_ne_nil _ _)] at hlast
      exact stmtsCode_last hbody hlast
  · rw [heq]
    refine Or.inr ?_
    simpa using Placed.middle (paramCode f.params ++ body) [.op (.push .null), .ret] []

/-- A function whose arguments are its only operands does what evaluating its body does, and hands the value to its
caller. -/
theorem meets_body {k : Setting} (hk : k.Calls) {f : Tree.Function} {g : Function} {args : List Value}
    (hg : lowerFunction k.context.layouts f = .ok g) (hname : f.name = k.context.function)
    (hcalls : stmtsCalls k.context.program f.body = true) (hargs : f.params.length = args.length) (callers : List Frame)
    (w : World) :
    Meets k.chunk k.context.rounds (stateOf w ({ function := g, stack := args } :: callers))
      ((stmtsFlow k.context (Env.ofArgs f.params args) f.body >>= fun flow =>
        match flow with
        | .next _ => Pure.pure .null
        | .returned v => Pure.pure v : Effect Value) w)
      (fun v frames => frames = deliver v callers) := by
  obtain ⟨body, scope, hbody, rfl⟩ := lowerFunction_eq_ok hg
  have hbehind := behind_body hbody
  have hplaced := (placed_code f.params body).2
  refine Meets.of_reaches (steps_entering (fun i hi => lowerFunction_stores hg (hargs ▸ hi)) (Nat.le_refl _)).reaches ?_
  rw [Frame.entering_length]
  have hexec := (stmtCases hk).stmts hbody hcalls (paramScope_wellNumbered f.params) (Env.ofArgs f.params args)
  refine Meets.bind (hexec _ callers w ⟨hargs.symm, by simpa [hargs] using hplaced, ⟨hname, holds_args hargs⟩, rfl⟩) ?_
  intro flow w' frames hdone hafter
  cases flow with
  | returned v => exact Meets.pure hafter
  | next env =>
    obtain ⟨locals, -, rfl⟩ := hafter
    -- A body that ends in a return does not come this far; behind any other there is the code that gives null back.
    rcases hbehind with ⟨e, hlast⟩ | hreturn
    · exact absurd ⟨w, w', hdone⟩ (not_yields_next hlast)
    · refine Meets.of_next (Meets.push (by simpa using hreturn.head)) ?_
      refine Meets.of_next (Meets.ret (by simpa using hreturn.tail.head) rfl) ?_
      exact Meets.pure rfl

section
variable {layouts : Layouts} {p : Tree.Program} {c : Chunk}

/-- A function of a program does what evaluating a call of it does. A call that is exhausted stands for one step less than
its bound; the call instruction is the missing one. -/
theorem meets_functionValue (hlower : lowerFunctions layouts {} p.functions = .ok c) (hcalls : WellCalled p)
    (bound : Nat) {f : Tree.Function} (hf : f ∈ p.functions) {g : Function} (hg : lowerFunction layouts f = .ok g)
    {args : List Value} (hargs : f.params.length = args.length) (callers : List Frame) (w : World) :
    Meets c (bound - 1) (stateOf w ({ function := g, stack := args } :: callers))
      (functionValue layouts p bound f args w) (fun v frames => frames = deliver v callers) := by
  induction bound generalizing f g args callers w with
  | zero => exact ⟨_, .refl _⟩
  | succ bound ih =>
    have hk : Setting.Calls ⟨c, ⟨layouts, p, f.name, bound, functionValue layouts p bound⟩⟩ := by
      refine ⟨?_, fun hname => get?_of_function?_none hlower hname⟩
      intro scope env name h args _ hh hargs f callers w rest hat hf hstack
      obtain ⟨g, hg, hget⟩ := get?_of_function? hlower hh
      obtain ⟨hmem, rfl⟩ := function?_mem hh
      have harity : g.arity = args.length := (lowerFunction_arity hg).trans hargs
      have hcallee := ih hmem hg hargs (f.moved 1 rest :: callers) w
      have hcall := hcallee.succ (next_call hat.head hget harity hstack)
      exact hcall.of_le (show bound ≤ bound - 1 + 1 by omega)
    unfold functionValue
    rw [if_pos hargs]
    exact meets_body hk hg rfl (hcalls f hf) hargs callers w

/-! ### Programs -/

/-- The world that a machine keeps. -/
def machineWorld (m : Machine) : World :=
  ⟨m.heap, m.input, m.output⟩

/-- How a program comes out, a fault with the function in which it arose, and the world that it leaves behind. -/
structure Report where
  result : Except (Fault × Option String) Unit
  world : World

/-- What a run of the machine shows. -/
def runReport (r : Except Failure Unit × Machine) : Report where
  result := r.1.mapError fun failure => (failure.fault, failure.site.map Site.function)
  world := machineWorld r.2

/-- What an evaluation that ends shows. -/
def evaluationReport? : Result Unit → Option Report
  | .done () w => some ⟨.ok (), w⟩
  | .failed fault function w => some ⟨.error (fault, function), w⟩
  | .exhausted | .wrong => none

/-- A chunk has an entry point where the program has one. -/
theorem entryPoint?_eq (hlower : lowerFunctions layouts {} p.functions = .ok c) :
    match (function? p "main").filter fun f => f.params.isEmpty with
    | none => Machine.entryPoint? c = none
    | some f => f ∈ p.functions ∧ f.params = [] ∧
        ∃ g, lowerFunction layouts f = .ok g ∧ Machine.entryPoint? c = some g := by
  unfold Machine.entryPoint?
  cases hf : function? p "main" with
  | none =>
    rw [get?_of_function?_none hlower hf]
    rfl
  | some f =>
    obtain ⟨g, hg, hget⟩ := get?_of_function? hlower hf
    have harity := lowerFunction_arity hg
    rw [hget]
    cases hparams : f.params with
    | nil =>
      rw [hparams] at harity
      simp only [Option.filter, hparams, harity]
      exact ⟨(function?_mem hf).1, hparams, g, hg, rfl⟩
    | cons v rest =>
      rw [hparams] at harity
      simp [Option.filter, hparams, harity]

/-- A machine runs a chunk as an evaluation comes out. An evaluation that is exhausted leaves a run unfinished. -/
def RunMeets (c : Chunk) (m : Machine) (n : Nat) : Result Unit → Prop
  | .done () w => ∃ bound r, m.run? c bound = some r ∧ runReport r = ⟨.ok (), w⟩
  | .failed fault function w => ∃ bound r, m.run? c bound = some r ∧ runReport r = ⟨.error (fault, function), w⟩
  | .exhausted => m.run? c n = none
  | .wrong => False

/-- The end of a run without a fault, where the output is flushed. -/
theorem runMeets_flush {m : Machine} {main : Function} (hmain : Machine.entryPoint? c = some main) {w : World} {n : Nat}
    (h : State.Reaches c (m.start main) (stateOf w [])) : RunMeets c m n (Effect.flush w) := by
  obtain ⟨k, hk⟩ := h.steps
  obtain ⟨d, hrun⟩ := State.run?_end m.settings hk rfl m.diagnostics
  unfold Effect.flush
  cases hflush : w.output.flush with
  | ok u =>
    refine ⟨k + 1, (.ok (), m.resume (stateOf w []) (d.report m.settings)), ?_, rfl⟩
    simp only [Machine.run?, hmain, hrun, Option.map_some, Machine.finish, stateOf, hflush]
  | error reason =>
    refine ⟨k + 1, (.error ⟨.flushFailed reason, none⟩, m.resume (stateOf w []) d), ?_, rfl⟩
    simp only [Machine.run?, hmain, hrun, Option.map_some, Machine.finish, stateOf, hflush]

/-- Evaluation of a program and runs of its chunk agree, and no evaluation goes wrong. -/
theorem runMeets_runProgram (hlower : lowerFunctions layouts {} p.functions = .ok c) (hcalls : WellCalled p)
    (m : Machine) (bound : Nat) : RunMeets c m (bound - 1) (runProgram layouts p bound (machineWorld m)) := by
  have hentry := entryPoint?_eq hlower
  unfold runProgram
  cases hmain : (function? p "main").filter fun f => f.params.isEmpty with
  | none =>
    rw [hmain] at hentry
    exact ⟨0, (.error ⟨.noEntryPoint, none⟩, m), by simp only [Machine.run?, hentry], rfl⟩
  | some main =>
    rw [hmain] at hentry
    obtain ⟨hmem, hparams, g, hg, hentry⟩ := hentry
    have hargs : main.params.length = ([] : List Value).length := by rw [hparams]; rfl
    have hmeets := meets_functionValue hlower hcalls bound hmem hg hargs [] (machineWorld m)
    -- The function runs first, and the output is flushed if it returns.
    show RunMeets c m (bound - 1) (Effect.bind (functionValue layouts p bound main []) (fun _ => .flush) (machineWorld m))
    unfold Effect.bind
    cases hr : functionValue layouts p bound main [] (machineWorld m) with
    | done v w =>
      rw [hr] at hmeets
      obtain ⟨frames, hreach, rfl⟩ := hmeets
      exact runMeets_flush hentry hreach
    | failed fault function w =>
      rw [hr] at hmeets
      obtain ⟨t, u, site, hreach, hfails, rfl, rfl⟩ := hmeets
      obtain ⟨k, hk⟩ := hreach.steps
      obtain ⟨d, hrun⟩ := State.run?_fails m.settings hk hfails m.diagnostics
      refine ⟨k + 1, (.error ⟨fault, some site⟩, m.resume u d), ?_, rfl⟩
      have hstart : State.run? c m.settings (k + 1) (m.start g) m.diagnostics = _ := hrun
      simp only [Machine.run?, hentry, hstart, Option.map_some, Machine.finish]
    | exhausted =>
      rw [hr] at hmeets
      -- The machine has made at least as many steps without an end.
      obtain ⟨t, ht⟩ := hmeets
      have hrun : State.run? c m.settings (bound - 1) (m.start g) m.diagnostics = none :=
        State.run?_eq_none m.settings ht m.diagnostics
      simp only [RunMeets, Machine.run?, hentry, hrun, Option.map_none]
    | wrong =>
      rw [hr] at hmeets
      exact hmeets

/-- A run within the bound shows what the evaluation shows. -/
theorem RunMeets.report {m : Machine} {n bound : Nat} {result : Result Unit} (h : RunMeets c m n result)
    {r : Except Failure Unit × Machine} (hr : m.run? c bound = some r) (hle : bound ≤ n) :
    evaluationReport? result = some (runReport r) := by
  have hsame : ∀ {bound' : Nat} {r' : Except Failure Unit × Machine}, m.run? c bound' = some r' → r' = r := by
    intro bound' r' hr'
    have hmax := Machine.run?_of_le hr (Nat.le_max_left bound bound')
    rw [Machine.run?_of_le hr' (Nat.le_max_right bound bound')] at hmax
    exact Option.some.inj hmax
  cases result with
  | done u w =>
    obtain ⟨bound', r', hr', hreport⟩ := h
    rw [← hsame hr', hreport]
    rfl
  | failed fault function w =>
    obtain ⟨bound', r', hr', hreport⟩ := h
    rw [← hsame hr', hreport]
    rfl
  | exhausted =>
    have hsome := Machine.run?_of_le hr hle
    rw [show m.run? c n = none from h] at hsome
    cases hsome
  | wrong => exact h.elim

/-- An evaluation that ends shows what some run shows. -/
theorem RunMeets.run {m : Machine} {n : Nat} {result : Result Unit} (h : RunMeets c m n result) {report : Report}
    (hreport : evaluationReport? result = some report) : ∃ bound, (m.run? c bound).map runReport = some report := by
  cases result with
  | done u w =>
    obtain ⟨bound, r, hr, heq⟩ := h
    exact ⟨bound, by rw [hr, Option.map_some, heq]; exact hreport⟩
  | failed fault function w =>
    obtain ⟨bound, r, hr, heq⟩ := h
    exact ⟨bound, by rw [hr, Option.map_some, heq]; exact hreport⟩
  | exhausted => cases hreport
  | wrong => cases hreport

end

end Bytecode.Correctness
