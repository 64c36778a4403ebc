import Bytecode.Proofs.Safety.Heights

/-! The operand stack in runs of lowered programs. How many operands a frame has depends on its function and its index
    alone. So no instruction finds too few operands, if all calls have the right number of arguments, and no expression
    touches what lies below its own operands. -/

namespace Bytecode.Safety
open Evaluation Lowering

/-- Heights for the functions of a chunk that agree along every way through their code. -/
structure Levels (c : Chunk) (height : Function → Nat → Nat) : Prop where
  start {g : Function} (hg : g ∈ c.functions) : height g 0 = g.arity
  enough {g : Function} (hg : g ∈ c.functions) {pc : Nat} {i : Instr} (hi : g.code[pc]? = some i) : i.takes c ≤ height g pc
  ret {g : Function} (hg : g ∈ c.functions) {pc : Nat} (hi : g.code[pc]? = some .ret) : height g pc = 1
  flow {g : Function} (hg : g ∈ c.functions) {pc pc' : Nat} {i : Instr} (hi : g.code[pc]? = some i)
    (hpc : pc' ∈ i.successors pc) (hresolves : i.Resolves c) : height g pc' = height g pc - i.takes c + i.gives

/-- The innermost frame has as many operands as its index says, and each other frame has one operand less than it will
have when its call returns. -/
def Leveled (height : Function → Nat → Nat) : List Frame → Prop
  | [] => True
  | f :: callers => f.stack.length = height f.function f.pc ∧ ∀ g ∈ callers, g.stack.length + 1 = height g.function g.pc

/-- All calls in code are of functions of the chunk. -/
def Resolved (c : Chunk) (code : List Instr) : Prop :=
  ∀ i ∈ code, i.Resolves c

section
variable {c : Chunk} {height : Function → Nat → Nat} {s t : State} {g : Function}

/-- A labelling by heights as a function of the index. -/
theorem levels_of_labelled {label : Function → List Nat}
    (h : ∀ g ∈ c.functions, Labelled (heights c 0) g.arity g (label g)) :
    Levels c fun g pc => ((label g)[pc]?).getD 0 where
  start hg := by
    obtain ⟨m, rfl, hget⟩ := (h _ hg).start
    simp [hget]
  enough hg _ _ hi := by
    obtain ⟨l, hl, hallowed, -⟩ := (h _ hg).sound hi
    simpa [hl] using hallowed.1
  ret hg _ hi := by
    obtain ⟨l, hl, hallowed, -⟩ := (h _ hg).sound hi
    simpa [hl] using hallowed.2 rfl
  flow hg _ _ _ hi hpc hresolves := by
    obtain ⟨l, hl, -, hflow⟩ := (h _ hg).sound hi
    obtain ⟨m, hm, hlm⟩ := hflow _ hpc
    simpa [hl, hm] using hlm hresolves

/-! ### Expressions -/

/-- Where straight code stands in a function, the heights of its indices are those that the code leads through, up to a
call of no function. -/
theorem Leads.heights {base start h' : Nat} {code : List Instr} (hleads : Leads c base (height g start) code h')
    (h : Levels c height) (hg : g ∈ c.functions) (hplaced : Placed g.code.toList start code) (hstraight : Straight code) :
    (∀ j i, code[j]? = some i → Resolved c (code.take j) → base + i.takes c ≤ height g (start + j)) ∧
      (Resolved c code → height g (start + code.length) = h') := by
  obtain ⟨whole, ⟨_, rfl, hstart⟩, ⟨_, rfl, hend⟩, -, hcovers⟩ := (hleads start).exists_whole
  have hcode : ∀ {j i}, code[j]? = some i → g.code[start + j]? = some i := fun hi => by
    rw [← Array.getElem?_toList]
    exact hplaced.get hi
  -- Up to a call of no function both labellings are determined by the label of the first index.
  have hagree : ∀ j, j ≤ code.length → Resolved c (code.take j) → whole[start + j]? = some (height g (start + j)) := by
    intro j
    induction j with
    | zero => exact fun _ _ => hstart
    | succ j ih =>
      intro hj hresolved
      have hi : code[j]? = some code[j] := List.getElem?_eq_getElem hj
      have hbefore : Resolved c (code.take j) := fun i' hi' =>
        hresolved i' (List.take_subset_take_left _ (Nat.le_succ j) hi')
      have hresolves : code[j].Resolves c := by
        refine hresolved _ (List.mem_of_getElem? (i := j) ?_)
        rw [List.getElem?_take_of_lt (Nat.lt_succ_self j), hi]
      have hnext : start + j + 1 ∈ code[j].successors (start + j) := by
        rw [Instr.successors_of_straight (hstraight _ (List.getElem_mem hj))]
        exact List.mem_singleton_self _
      obtain ⟨l, hl, -, hflow⟩ := hcovers.sound hi
      obtain ⟨m, hm, hlm⟩ := hflow _ hnext
      rw [ih (Nat.le_of_succ_le hj) hbefore, Option.some.injEq] at hl
      rw [← Nat.add_assoc, hm, hlm hresolves, ← hl, h.flow hg (hcode hi) hnext hresolves]
  refine ⟨fun j i hi hresolved => ?_, fun hresolved => ?_⟩
  · have hj : j < code.length := (List.getElem?_eq_some_iff.mp hi).1
    obtain ⟨l, hl, hallowed, -⟩ := hcovers.sound hi
    rw [hagree j (Nat.le_of_lt hj) hresolved, Option.some.injEq] at hl
    exact hl ▸ hallowed.1
  · have hlast := hagree code.length (Nat.le_refl _) (by rwa [List.take_length])
    rw [hend, Option.some.injEq] at hlast
    exact hlast.symm

/-- An expression raises the height by 1, and its instructions find their operands above the height of its start. -/
theorem Levels.expr (h : Levels c height) {layouts : Layouts} {p : Tree.Program}
    (hlower : lowerFunctions layouts {} p.functions = .ok c) (hg : g ∈ c.functions) {scope : Scope} {start : Nat}
    {e : Tree.Expr} {code : List Instr} (hcode : exprCode layouts scope e = .ok code) (hcalls : exprCalls p e = true)
    (hplaced : Placed g.code.toList start code) :
    (∀ j i, code[j]? = some i → Resolved c (code.take j) → height g start + i.takes c ≤ height g (start + j)) ∧
      (Resolved c code → height g (start + code.length) = height g start + 1) := by
  have hleads : Leads c (height g start) (height g start) code (height g start + 1) :=
    (heightExprCases hlower scope).expr hcode hcalls _ _ (Nat.le_refl _)
  exact hleads.heights h hg hplaced (exprCode_straight hcode)

/-- An instruction that finds its operands above a base does not touch what lies below it. -/
theorem exists_above {f : Frame} {i : Instr} {base : Nat} (hi : i ≠ .ret) (hle : base + i.takes c ≤ f.stack.length)
    (s : State) (callers : List Frame) :
    ∃ above below, f.stack = above ++ below ∧ below.length = base ∧
      ∀ rest, s.step c { f with stack := above ++ rest } callers i =
        (s.step c { f with stack := above } callers i).putBelow callers.length rest := by
  refine ⟨f.stack.take (f.stack.length - base), f.stack.drop (f.stack.length - base),
    (List.take_append_drop _ _).symm, by rw [List.length_drop]; omega, fun rest => ?_⟩
  have henough : i.takes c ≤ (f.stack.take (f.stack.length - base)).length := by
    rw [List.length_take]
    omega
  exact State.step_putBelow (f := { f with stack := f.stack.take (f.stack.length - base) }) hi henough rest

/-! ### Runs -/

theorem Leveled.next (h : Levels c height) (hmem : ∀ f ∈ s.frames, f.function ∈ c.functions) (hnext : s.Next c t)
    (hs : Leveled height s.frames) : Leveled height t.frames := by
  obtain ⟨f, callers, i, hframes, hi, hmoved⟩ := hnext.moved
  rw [hframes] at hs hmem
  obtain ⟨htop, hcallers⟩ := hs
  have hf : f.function ∈ c.functions := hmem f List.mem_cons_self
  have henough := h.enough hf hi
  rw [← htop] at henough
  generalize t.frames = frames at hmoved
  cases hmoved with
  | within hfunction hpc hstack _ _ hresolves =>
    obtain ⟨new, hnew, heq⟩ := hstack henough
    refine ⟨?_, hcallers⟩
    rw [hfunction, h.flow hf hi hpc hresolves, heq, ← htop, List.length_append, hnew, List.length_drop, Nat.add_comm]
  | @call name g hget harity =>
    have hresolves : (Instr.call name).Resolves c := by
      rintro _ ⟨⟩
      simp [hget]
    -- The callee starts with its arguments, and its caller lacks no more than the result.
    have htakes : (Instr.call name).takes c = g.arity := by simp [Instr.takes, hget]
    refine ⟨?_, fun g' hg' => ?_⟩
    · rw [h.start (Chunk.mem_of_get? hget)]
      simpa using Nat.min_eq_left harity
    · rcases List.mem_cons.mp hg' with rfl | hg'
      · rw [h.flow hf hi (List.mem_singleton_self _) hresolves, htakes, ← htop, List.length_drop]
        rfl
      · exact hcallers g' hg'
  | ret =>
    cases callers with
    | nil => trivial
    | cons g rest => exact ⟨hcallers g List.mem_cons_self, fun g' hg' => hcallers g' (List.mem_cons_of_mem _ hg')⟩

theorem leveled_of_visits (h : Levels c height) {m : Machine} (hs : m.Visits c s) : Leveled height s.frames := by
  refine hs.induction (P := fun s => Leveled height s.frames) (fun main hmain => ?_) fun s t hs hnext hleveled => ?_
  · obtain ⟨hmem, harity⟩ := Machine.entryPoint?_eq_some hmain
    refine ⟨?_, nofun⟩
    rw [h.start hmem, harity]
    rfl
  · exact hleveled.next h (State.function_mem hs) hnext

theorem operands_not_missing (h : Levels c height) {m m' : Machine} {bound : Nat} {failure : Failure}
    (hrun : m.run? c bound = some (.error failure, m')) (hframe : failure.fault.ofFrame = true) :
    ∃ slot, failure.fault = .unsetSlot slot := by
  rcases Machine.run?_error hrun with rfl | ⟨reason, rfl⟩ | ⟨s, t, hvisits, f, callers, i, hnext, hstep, -⟩
  · cases hframe
  · cases hframe
  · obtain ⟨hframes, hi⟩ := State.next?_eq_some_iff.mp hnext
    rcases State.step_faulted hstep hframe with ⟨hlt, -⟩ | ⟨slot, -, -, heq⟩
    · have hleveled := leveled_of_visits h hvisits
      rw [hframes] at hleveled
      have henough := h.enough (State.top_mem hvisits hframes) hi
      rw [hleveled.1] at hlt
      exact absurd henough (Nat.not_le.mpr hlt)
    · exact ⟨slot, heq⟩

end

/-- The operand stack of a lowered program whose calls have the right number of arguments. The height of the innermost
frame depends on its function and its index alone, and a frame that waits for a call has one operand less than it will
have behind the call. The height is 0 at the start of each statement and of each round of a loop, and a return finds one
operand. An expression raises the height by 1, and none of its instructions reads or removes what lies below: the
instruction does the same with any other operands there. (A call of no function fails, so nothing is said behind one.) So
no run fails because an operand or an argument is missing. -/
theorem lowered_stack_discipline {g : Generator} {p : Tree.Program} {c : Chunk} (h : (g.lower p).1 = .ok c)
    (hcalls : WellCalled p) :
    ∃ height : Function → Nat → Nat,
      (∀ (m : Machine) (s : State) (f : Frame) (callers : List Frame), m.Visits c s → s.frames = f :: callers →
        f.stack.length = height f.function f.pc ∧ (∀ g ∈ callers, g.stack.length + 1 = height g.function g.pc) ∧
          (f.function.code[f.pc]? = some .ret → ∃ v, f.stack = [v])) ∧
      (∀ f ∈ p.functions, ∃ g', c.get? f.name = some g' ∧
        ∀ scope start s, StmtAt (g.lower p).2.layouts (paramScope f.params) f.params.length f.body scope start s →
          height g' start = 0 ∧ ∀ head ∈ loopHead? (g.lower p).2.layouts scope start s, height g' head.2 = 0) ∧
      (∀ g' ∈ c.functions, ∀ scope start e code, exprCode (g.lower p).2.layouts scope e = .ok code →
        exprCalls p e = true → Placed g'.code.toList start code →
          (Resolved c code → height g' (start + code.length) = height g' start + 1) ∧
          ∀ (m : Machine) (s : State) (f : Frame) (callers : List Frame) (j : Nat) (i : Instr), m.Visits c s →
            s.frames = f :: callers → f.function = g' → f.pc = start + j → code[j]? = some i →
            Resolved c (code.take j) → ∃ above below, f.stack = above ++ below ∧ below.length = height g' start ∧
              ∀ rest, s.step c { f with stack := above ++ rest } callers i =
                (s.step c { f with stack := above } callers i).putBelow callers.length rest) ∧
      ∀ (m m' : Machine) (bound : Nat) (failure : Failure), m.run? c bound = some (.error failure, m') →
        failure.fault ≠ .underflow ∧ ∀ name arity present, failure.fault ≠ .missingArguments name arity present := by
  obtain ⟨label, hlabel, hmarks⟩ := (follows_heights h).functions h fun _ => hcalls
  have hlevels := levels_of_labelled hlabel
  refine ⟨fun g pc => ((label g)[pc]?).getD 0, ?_, ?_, ?_, ?_⟩
  · intro m s f callers hs hframes
    have hleveled := leveled_of_visits hlevels hs
    have hmem := State.top_mem hs hframes
    rw [hframes] at hleveled
    refine ⟨hleveled.1, hleveled.2, fun hret => ?_⟩
    exact List.length_eq_one_iff.mp (hleveled.1.trans (hlevels.ret hmem hret))
  · intro f hf
    obtain ⟨g', hget, hstmts⟩ := hmarks f hf
    refine ⟨g', hget, fun scope start s hs => ?_⟩
    obtain ⟨⟨_, rfl, hfirst⟩, hhead⟩ := hstmts scope start s hs
    refine ⟨by simp only [hfirst, Option.getD_some], fun head hmem => ?_⟩
    obtain ⟨_, rfl, hlabel⟩ := hhead head hmem
    simp only [hlabel, Option.getD_some]
  · intro g' hg' scope start e code hcode hexpr hplaced
    obtain ⟨henough, hend⟩ := hlevels.expr h hg' hcode hexpr hplaced
    refine ⟨hend, fun m s f callers j i hs hframes hfunction hpc hi hresolved => ?_⟩
    have hleveled := leveled_of_visits hlevels hs
    rw [hframes] at hleveled
    -- Expressions have no returns, so the instruction needs nothing below the values it takes.
    have hne : i ≠ .ret := by
      rintro rfl
      cases exprCode_straight hcode _ (List.mem_of_getElem? hi)
    have hheight := hleveled.1
    rw [hfunction, hpc] at hheight
    exact exists_above hne (by rw [hheight]; exact henough j i hi hresolved) s callers
  · intro m m' bound failure hrun
    refine ⟨fun hfault => ?_, fun name arity present hfault => ?_⟩
    all_goals
      obtain ⟨slot, heq⟩ := operands_not_missing hlevels hrun (by rw [hfault]; rfl)
      rw [hfault] at heq
      cases heq

theorem doubling_stack_discipline :
    (Generator.lower {} doubling).1 = .ok doublingChunk ∧ WellCalled doubling ∧
      ∃ height : Function → Nat → Nat,
        (∀ (m : Machine) (s : State) (f : Frame) (callers : List Frame), m.Visits doublingChunk s →
          s.frames = f :: callers → f.stack.length = height f.function f.pc) ∧
        ∃ main, doublingChunk.get? "main" = some main ∧ height main 2 = 0 ∧ height main 5 = 1 := by
  have hcalls : WellCalled doubling := by decide
  obtain ⟨height, hruns, hstmts, hexprs, -⟩ := lowered_stack_discipline lower_doubling hcalls
  refine ⟨lower_doubling, hcalls, height, fun m s f callers hs hframes => (hruns m s f callers hs hframes).1, ?_⟩
  obtain ⟨main, hget, hat⟩ := hstmts _ (List.mem_cons_self (l := doubling.functions.tail))
  obtain rfl := Option.some.inj hget
  -- The loop starts behind the declaration, and its condition raises the height.
  have hloop := (hat _ 2 _ (.later rfl .here)).1
  have hcondition := (hexprs _ List.mem_cons_self ⟨[[("n", 0)]], 1⟩ 2 (.binary .lt (.var "n") (.literal (.int 3)))
    [.load 0, .op (.push (.int 3)), .op (.order .lt)] rfl rfl ⟨rfl, rfl, rfl, trivial⟩).1
  rw [hloop] at hcondition
  refine ⟨_, hget, hloop, hcondition ?_⟩
  intro i hi name hname
  simp [hname] at hi

end Bytecode.Safety
