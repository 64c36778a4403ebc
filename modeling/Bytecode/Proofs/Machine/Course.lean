import Bytecode.Proofs.Machine.Steps

/-! What a run does apart from its diagnostics: the instructions that it executes, and how it ends. Diagnostics are taken
    down along the course of a run and never change it, so that a run under settings is its course with every executed
    instruction observed in turn (`run?_eq_course?`). The course is the trail of the instructions that succeed up to the end of
    the run or to the instruction that fails (`course?_eq_some`), and is the same for every bound that allows it. -/

namespace Bytecode

/-- The course of a run: the instructions that were executed, the one that failed included, the result and the state that
was left behind. -/
structure Course where
  executed : List Execution
  result : Except Failure Unit
  state : State

namespace Course

/-- The course with instructions before it. -/
def behind (xs : List Execution) (r : Course) : Course :=
  { r with executed := xs ++ r.executed }

/-- How a run with a course ends, if its instructions are observed under settings. -/
def ending (settings : Settings) (d : Diagnostics) (r : Course) : Ending where
  result := r.result
  state := r.state
  diagnostics := r.executed.foldl (fun d x => d.observe settings x.1 x.2.1 x.2.2) d

@[simp] theorem ending_result (settings : Settings) (d : Diagnostics) (r : Course) :
    (r.ending settings d).result = r.result := rfl

@[simp] theorem ending_state (settings : Settings) (d : Diagnostics) (r : Course) :
    (r.ending settings d).state = r.state := rfl

end Course

/-- The course of the run from a state; nothing if the bound is reached first. -/
def State.course? (c : Chunk) : Nat → State → Option Course
  | 0, _ => none
  | bound + 1, s =>
    match s.next? with
    | none => some ⟨[], .ok (), s⟩
    | some (f, callers, i) =>
      match s.step c f callers i with
      | .running t => (State.course? c bound t).map (.behind [(f, callers, i)])
      | .faulted fault t => some ⟨[(f, callers, i)], .error ⟨fault, some (f.site i)⟩, t⟩

namespace State
variable {c : Chunk}

/-- A run under settings is its course with every executed instruction observed in turn. -/
theorem run?_eq_course? (settings : Settings) (bound : Nat) (s : State) (d : Diagnostics) :
    run? c settings bound s d = (course? c bound s).map (Course.ending settings d) := by
  induction bound generalizing s d with
  | zero => rfl
  | succ bound ih =>
    unfold run? course?
    cases s.next? with
    | none => rfl
    | some next =>
      obtain ⟨f, callers, i⟩ := next
      dsimp only
      cases s.step c f callers i with
      | running t =>
        dsimp only
        rw [ih, Option.map_map]
        rfl
      | faulted fault t => rfl

section
variable {bound : Nat} {s t : State} {f : Frame} {callers : List Frame} {i : Instr}

theorem course?_of_end (hnext : s.next? = none) : course? c (bound + 1) s = some ⟨[], .ok (), s⟩ := by
  simp only [course?, hnext]

theorem course?_of_running (hnext : s.next? = some (f, callers, i)) (hstep : s.step c f callers i = .running t) :
    course? c (bound + 1) s = (course? c bound t).map (.behind [(f, callers, i)]) := by
  simp only [course?, hnext, hstep]

theorem course?_of_faulted {fault : Fault} (hnext : s.next? = some (f, callers, i))
    (hstep : s.step c f callers i = .faulted fault t) :
    course? c (bound + 1) s = some ⟨[(f, callers, i)], .error ⟨fault, some (f.site i)⟩, t⟩ := by
  simp only [course?, hnext, hstep]

/-- A run goes on behind a trail as it would have started from there. -/
theorem course?_of_trail {xs : List Execution} (h : Trail (Does c) xs s t) (bound : Nat) :
    course? c (xs.length + bound) s = (course? c bound t).map (.behind xs) := by
  induction h with
  | refl s =>
    rw [List.length_nil, Nat.zero_add]
    exact Option.map_id'.symm
  | next first _ ih =>
    rw [List.length_cons, Nat.add_right_comm, course?_of_running first.1 first.2, ih, Option.map_map]
    rfl

end

/-- A course within its bound follows the instructions that succeed up to the end or to the one that fails. -/
theorem course?_eq_some {bound : Nat} {s : State} {r : Course} (h : course? c bound s = some r) :
    ∃ done t, done.length < bound ∧ Trail (Does c) done s t ∧
      ((t.next? = none ∧ r = ⟨done, .ok (), t⟩) ∨
        ∃ f callers i fault u, t.next? = some (f, callers, i) ∧ t.step c f callers i = .faulted fault u ∧
          r = ⟨done ++ [(f, callers, i)], .error ⟨fault, some (f.site i)⟩, u⟩) := by
  induction bound generalizing s r with
  | zero => cases h
  | succ bound ih =>
    cases hn : s.next? with
    | none =>
      rw [course?_of_end hn] at h
      exact ⟨[], s, Nat.succ_pos _, .refl s, Or.inl ⟨hn, (Option.some.inj h).symm⟩⟩
    | some next =>
      obtain ⟨f, callers, i⟩ := next
      cases hs : s.step c f callers i with
      | running t =>
        rw [course?_of_running hn hs, Option.map_eq_some_iff] at h
        obtain ⟨r, hcourse, rfl⟩ := h
        -- The step comes in front of the course that the rest of the run has.
        have hfirst : s.Does c (f, callers, i) t := ⟨hn, hs⟩
        obtain ⟨done, u, hlt, hdone, ⟨hu, rfl⟩ | ⟨g, rest, j, fault, v, hu, hstep, rfl⟩⟩ := ih hcourse
        · exact ⟨(f, callers, i) :: done, u, Nat.succ_lt_succ hlt, .next hfirst hdone, Or.inl ⟨hu, rfl⟩⟩
        · exact ⟨(f, callers, i) :: done, u, Nat.succ_lt_succ hlt, .next hfirst hdone,
            Or.inr ⟨g, rest, j, fault, v, hu, hstep, rfl⟩⟩
      | faulted fault t =>
        rw [course?_of_faulted hn hs] at h
        exact ⟨[], s, Nat.succ_pos _, .refl s, Or.inr ⟨f, callers, i, fault, t, hn, hs, (Option.some.inj h).symm⟩⟩

/-- A course with a failure ends with the instruction that failed, executed in the innermost frame of the state that the
instructions before it have led to. -/
theorem course?_error {bound : Nat} {s : State} {r : Course} {failure : Failure} (h : course? c bound s = some r)
    (hr : r.result = .error failure) :
    ∃ done t f callers i, Trail (Does c) done s t ∧ t.next? = some (f, callers, i) ∧
      t.step c f callers i = .faulted failure.fault r.state ∧ failure.site = some (f.site i) ∧
      r.executed = done ++ [(f, callers, i)] := by
  obtain ⟨done, t, -, hdone, ⟨-, rfl⟩ | ⟨f, callers, i, fault, u, hnext, hstep, rfl⟩⟩ := course?_eq_some h
  · cases hr
  · cases hr
    exact ⟨done, t, f, callers, i, hdone, hnext, hstep, rfl, rfl⟩

/-- A course within a bound is the course within every larger one. -/
theorem course?_mono {m n : Nat} {s : State} {r : Course} (h : course? c m s = some r) (hle : m ≤ n) :
    course? c n s = some r := by
  obtain ⟨done, t, hlt, hdone, hend⟩ := course?_eq_some h
  obtain ⟨k, rfl⟩ : ∃ k, n = done.length + (k + 1) := ⟨n - (done.length + 1), by omega⟩
  rw [course?_of_trail hdone]
  rcases hend with ⟨hnext, rfl⟩ | ⟨f, callers, i, fault, u, hnext, hstep, rfl⟩
  · rw [course?_of_end hnext]
    simp [Course.behind]
  · rw [course?_of_faulted hnext hstep]
    rfl

/-! ### Bounded runs -/

section
variable (settings : Settings) {m n bound : Nat} {s t u : State} {d : Diagnostics}

/-- A run that ends within a bound ends in the same way within every larger one. -/
theorem run?_mono {e : Ending} (h : run? c settings m s d = some e) (hle : m ≤ n) : run? c settings n s d = some e := by
  rw [run?_eq_course?] at h ⊢
  obtain ⟨r, hr, he⟩ := Option.map_eq_some_iff.mp h
  rw [course?_mono hr hle]
  exact congrArg some he

theorem run?_next (h : s.Next c t) (bound : Nat) (d : Diagnostics) :
    ∃ d', run? c settings (bound + 1) s d = run? c settings bound t d' := by
  obtain ⟨f, callers, i, hn, hs⟩ := h
  exact ⟨d.observe settings f callers i, by simp only [run?, hn, hs]⟩

theorem run?_eq_none (h : Steps c n s t) (d : Diagnostics) : run? c settings n s d = none := by
  obtain ⟨xs, hxs, rfl⟩ := h
  rw [run?_eq_course?, ← Nat.add_zero xs.length, course?_of_trail hxs]
  rfl

theorem run?_end (h : Steps c n s t) (ht : t.next? = none) (d : Diagnostics) :
    ∃ d', run? c settings (n + 1) s d = some ⟨.ok (), t, d'⟩ := by
  obtain ⟨xs, hxs, rfl⟩ := h
  rw [run?_eq_course?, course?_of_trail hxs, course?_of_end ht]
  exact ⟨_, rfl⟩

theorem run?_fails {failure : Failure} (h : Steps c n s t) (ht : t.Fails c failure u) (d : Diagnostics) :
    ∃ d', run? c settings (n + 1) s d = some ⟨.error failure, u, d'⟩ := by
  obtain ⟨xs, hxs, rfl⟩ := h
  obtain ⟨f, callers, i, hn, hs, hsite⟩ := ht
  rw [run?_eq_course?, course?_of_trail hxs, course?_of_faulted hn hs, ← hsite]
  exact ⟨_, rfl⟩

/-- A run within its bound is a number of steps to its end or to its failure. -/
theorem run?_eq_some {settings : Settings} {e : Ending} (h : run? c settings bound s d = some e) :
    ∃ n t, n < bound ∧ Steps c n s t ∧
      ((t.next? = none ∧ e.result = .ok () ∧ e.state = t) ∨
        ∃ failure, t.Fails c failure e.state ∧ e.result = .error failure) := by
  rw [run?_eq_course?] at h
  obtain ⟨r, hr, rfl⟩ := Option.map_eq_some_iff.mp h
  obtain ⟨done, t, hlt, hdone, hend⟩ := course?_eq_some hr
  refine ⟨done.length, t, hlt, ⟨done, hdone, rfl⟩, ?_⟩
  rcases hend with ⟨hnext, rfl⟩ | ⟨f, callers, i, fault, u, hnext, hstep, rfl⟩
  · exact Or.inl ⟨hnext, rfl, rfl⟩
  · exact Or.inr ⟨⟨fault, some (f.site i)⟩, ⟨f, callers, i, hnext, hstep, rfl⟩, rfl⟩

end
end State

namespace Machine

/-- The course of the run of a chunk; nothing if there is no entry point or the bound is reached first. -/
def course? (m : Machine) (c : Chunk) (bound : Nat) : Option Course :=
  (entryPoint? c).bind fun main => State.course? c bound (m.start main)

variable {m : Machine} {c : Chunk} {bound : Nat} {r : Course}

theorem course?_eq (m : Machine) {main : Function} (hmain : entryPoint? c = some main) (bound : Nat) :
    m.course? c bound = State.course? c bound (m.start main) := by
  rw [course?, hmain, Option.bind_some]

theorem finish_state (m : Machine) (e : Ending) :
    (m.finish e).2.input = e.state.input ∧ (m.finish e).2.output = e.state.output := by
  unfold finish
  cases e.result with
  | error failure => exact ⟨rfl, rfl⟩
  | ok _ =>
    dsimp only
    cases e.state.output.flush <;> exact ⟨rfl, rfl⟩

theorem run?_eq_course? {main : Function} (hmain : entryPoint? c = some main) (bound : Nat) :
    m.run? c bound = (m.course? c bound).map fun r => m.finish (r.ending m.settings m.diagnostics) := by
  simp only [run?, course?, hmain, State.run?_eq_course?, Option.map_map, Option.bind_some]
  rfl

theorem run?_of_course? (h : m.course? c bound = some r) :
    m.run? c bound = some (m.finish (r.ending m.settings m.diagnostics)) := by
  obtain ⟨main, hmain, -⟩ := Option.bind_eq_some_iff.mp h
  rw [run?_eq_course? hmain, h]
  rfl

theorem course?_error {failure : Failure} (h : m.course? c bound = some r) (hr : r.result = .error failure) :
    ∃ done s f callers i, m.Executes c done s ∧ s.next? = some (f, callers, i) ∧
      s.step c f callers i = .faulted failure.fault r.state ∧ failure.site = some (f.site i) ∧
      r.executed = done ++ [(f, callers, i)] := by
  obtain ⟨main, hmain, hcourse⟩ := Option.bind_eq_some_iff.mp h
  obtain ⟨done, s, f, callers, i, hdone, hrest⟩ := State.course?_error hcourse hr
  exact ⟨done, s, f, callers, i, ⟨main, hmain, hdone⟩, hrest⟩

/-- A run that fails has no entry point and has done nothing, has a course that fails in the same way, or has a course that
succeeds and an output that cannot be flushed. -/
theorem run?_error_course {m' : Machine} {failure : Failure} (h : m.run? c bound = some (.error failure, m')) :
    (entryPoint? c = none ∧ failure = ⟨.noEntryPoint, none⟩ ∧ m' = m) ∨
      ∃ r, m.course? c bound = some r ∧ m' = m.resume r.state (r.ending m.settings m.diagnostics).diagnostics ∧
        (r.result = .error failure ∨
          r.result = .ok () ∧ ∃ reason, r.state.output.flush = .error reason ∧ failure = ⟨.flushFailed reason, none⟩) := by
  cases hmain : entryPoint? c with
  | none =>
    simp only [run?, hmain, Option.some.injEq, Prod.mk.injEq, Except.error.injEq] at h
    exact Or.inl ⟨rfl, h.1.symm, h.2.symm⟩
  | some main =>
    rw [run?_eq_course? hmain, Option.map_eq_some_iff] at h
    obtain ⟨r, hr, hfinish⟩ := h
    refine Or.inr ⟨r, hr, ?_⟩
    rw [finish, Course.ending_result, Course.ending_state] at hfinish
    cases hcourse : r.result with
    | error failure' =>
      simp only [hcourse, Prod.mk.injEq, Except.error.injEq] at hfinish
      exact ⟨hfinish.2.symm, Or.inl (by rw [hfinish.1])⟩
    | ok u =>
      simp only [hcourse] at hfinish
      cases hflush : r.state.output.flush with
      | ok u => simp [hflush] at hfinish
      | error reason =>
        simp only [hflush, Prod.mk.injEq, Except.error.injEq] at hfinish
        exact ⟨hfinish.2.symm, Or.inr ⟨rfl, reason, rfl, hfinish.1.symm⟩⟩

/-- A run of a chunk that fails has no entry point, cannot flush its output, or fails at an instruction in one of its
states. -/
theorem run?_error {m' : Machine} {failure : Failure} (h : m.run? c bound = some (.error failure, m')) :
    failure = ⟨.noEntryPoint, none⟩ ∨ (∃ reason, failure = ⟨.flushFailed reason, none⟩) ∨
      ∃ s t, m.Visits c s ∧ s.Fails c failure t := by
  obtain ⟨-, hfailure, -⟩ | ⟨r, hr, -, hresult | ⟨-, reason, -, hfailure⟩⟩ := run?_error_course h
  · exact Or.inl hfailure
  · obtain ⟨done, s, f, callers, i, hdone, hnext, hstep, hsite, -⟩ := course?_error hr hresult
    exact Or.inr (Or.inr ⟨s, r.state, hdone.visits, f, callers, i, hnext, hstep, hsite⟩)
  · exact Or.inr (Or.inl ⟨reason, hfailure⟩)

theorem run?_of_le {bound' : Nat} {r : Except Failure Unit × Machine} (h : m.run? c bound = some r)
    (hle : bound ≤ bound') : m.run? c bound' = some r := by
  unfold run? at h ⊢
  cases hmain : entryPoint? c with
  | none =>
    simp only [hmain] at h ⊢
    exact h
  | some main =>
    simp only [hmain, Option.map_eq_some_iff] at h ⊢
    obtain ⟨e, he, hr⟩ := h
    exact ⟨e, State.run?_mono m.settings he hle, hr⟩

end Machine
end Bytecode
