import Bytecode.Machine.Run

/-! Runs of the machine as trails. A trail is a row of steps, each of which starts where the one before it has ended, with what
    was done in each of them. All that is said about parts of runs is said about their trails: the states that are reached,
    those that are reached by a number of instructions, and those that a run of a chunk comes to. -/

namespace Bytecode

/-- Steps that follow one another, with what is done in each of them. -/
inductive Trail {σ ε : Type} (step : σ → ε → σ → Prop) : List ε → σ → σ → Prop where
  | refl (s : σ) : Trail step [] s s
  | next {x : ε} {xs : List ε} {s t u : σ} (first : step s x t) (rest : Trail step xs t u) : Trail step (x :: xs) s u

namespace Trail
variable {σ ε : Type} {step : σ → ε → σ → Prop} {x : ε} {xs ys : List ε} {s t u : σ}

theorem single (h : step s x t) : Trail step [x] s t :=
  .next h (.refl t)

theorem trans (h : Trail step xs s t) (h' : Trail step ys t u) : Trail step (xs ++ ys) s u := by
  induction h with
  | refl => exact h'
  | next first _ ih => exact .next first (ih h')

/-- A trail can be cut anywhere. -/
theorem split (h : Trail step (xs ++ ys) s u) : ∃ t, Trail step xs s t ∧ Trail step ys t u := by
  induction xs generalizing s with
  | nil => exact ⟨s, .refl s, h⟩
  | cons x xs ih =>
    cases h with
    | next first rest =>
      obtain ⟨t, ht, hu⟩ := ih rest
      exact ⟨t, .next first ht, hu⟩

/-- What every step keeps, every trail keeps. -/
theorem keeps {P : σ → Prop} (hP : ∀ s x t, step s x t → P s → P t) (h : Trail step xs s t) (hs : P s) : P t := by
  induction h with
  | refl => exact hs
  | next first _ ih => exact ih (hP _ _ _ first hs)

end Trail

/-- An instruction as it is executed: the innermost frame, the frames of its callers and the instruction. -/
abbrev Execution := Frame × List Frame × Instr

namespace State

/-- An instruction comes next in a state and leads to another one. -/
def Does (c : Chunk) (s : State) (x : Execution) (t : State) : Prop :=
  s.next? = some x ∧ s.step c x.1 x.2.1 x.2.2 = .running t

/-- The next instruction leads from a state to another one. -/
def Next (c : Chunk) (s t : State) : Prop :=
  ∃ f callers i, s.next? = some (f, callers, i) ∧ s.step c f callers i = .running t

/-- The next instruction fails and leaves a state behind. -/
def Fails (c : Chunk) (s : State) (failure : Failure) (t : State) : Prop :=
  ∃ f callers i, s.next? = some (f, callers, i) ∧ s.step c f callers i = .faulted failure.fault t ∧
    failure.site = some (f.site i)

/-- A number of instructions leads from a state to another one. -/
def Steps (c : Chunk) (n : Nat) (s t : State) : Prop :=
  ∃ xs, Trail (Does c) xs s t ∧ xs.length = n

/-- A state is reached from another one. -/
def Reaches (c : Chunk) (s t : State) : Prop :=
  ∃ xs, Trail (Does c) xs s t

variable {c : Chunk} {m n : Nat} {s t u : State}

/-- The next instruction is the one at the index of the topmost frame. -/
theorem next?_eq_some_iff {f : Frame} {callers : List Frame} {i : Instr} :
    s.next? = some (f, callers, i) ↔ s.frames = f :: callers ∧ f.function.code[f.pc]? = some i := by
  unfold next?
  cases hs : s.frames with
  | nil => simp
  | cons g rest =>
    simp only [Option.map_eq_some_iff, Prod.mk.injEq, List.cons.injEq]
    constructor
    · rintro ⟨j, hj, rfl, rfl, rfl⟩
      exact ⟨⟨rfl, rfl⟩, hj⟩
    · rintro ⟨⟨rfl, rfl⟩, hi⟩
      exact ⟨i, hi, rfl, rfl, rfl⟩

/-- A state has no more than one successor. -/
theorem next_iff {f : Frame} {callers : List Frame} {i : Instr} (hn : s.next? = some (f, callers, i)) :
    s.Next c t ↔ s.step c f callers i = .running t := by
  constructor
  · rintro ⟨f', callers', i', hn', hs⟩
    rw [hn] at hn'
    cases hn'
    exact hs
  · exact fun hs => ⟨f, callers, i, hn, hs⟩

theorem Does.next {x : Execution} (h : s.Does c x t) : s.Next c t :=
  ⟨x.1, x.2.1, x.2.2, h.1, h.2⟩

theorem Next.does (h : s.Next c t) : ∃ x, s.Does c x t := by
  obtain ⟨f, callers, i, hnext, hstep⟩ := h
  exact ⟨(f, callers, i), hnext, hstep⟩

namespace Steps

theorem refl (s : State) : Steps c 0 s s :=
  ⟨[], .refl s, rfl⟩

theorem next (h : s.Next c t) (rest : Steps c n t u) : Steps c (n + 1) s u := by
  obtain ⟨x, hx⟩ := h.does
  obtain ⟨xs, hxs, rfl⟩ := rest
  exact ⟨x :: xs, .next hx hxs, rfl⟩

/-- Counted steps are followed from the first one on. -/
@[elab_as_elim, induction_eliminator]
theorem induction {motive : ∀ {n : Nat} {s t : State}, Steps c n s t → Prop} (refl : ∀ s, motive (refl s))
    (next : ∀ {n : Nat} {s t u : State} (h : s.Next c t) (rest : Steps c n t u), motive rest → motive (.next h rest))
    {n : Nat} {s t : State} (h : Steps c n s t) : motive h := by
  obtain ⟨xs, hxs, rfl⟩ := h
  induction hxs with
  | refl s => exact refl s
  | next first rest ih => exact next first.next ⟨_, rest, rfl⟩ ih

theorem single (h : s.Next c t) : Steps c 1 s t :=
  .next h (.refl t)

theorem trans (h : Steps c m s t) (h' : Steps c n t u) : Steps c (m + n) s u := by
  obtain ⟨xs, hxs, rfl⟩ := h
  obtain ⟨ys, hys, rfl⟩ := h'
  exact ⟨xs ++ ys, hxs.trans hys, List.length_append⟩

theorem zero_iff : Steps c 0 s t ↔ t = s := by
  constructor
  · rintro ⟨xs, hxs, hlength⟩
    obtain rfl := List.eq_nil_of_length_eq_zero hlength
    cases hxs
    rfl
  · rintro rfl
    exact .refl t

theorem succ_iff : Steps c (n + 1) s t ↔ ∃ u, s.Next c u ∧ Steps c n u t := by
  constructor
  · rintro ⟨xs, hxs, hlength⟩
    cases hxs with
    | refl => cases hlength
    | next first rest => exact ⟨_, first.next, _, rest, Nat.succ.inj hlength⟩
  · rintro ⟨u, hnext, hrest⟩
    exact .next hnext hrest

theorem last (h : Steps c (n + 1) s t) : ∃ u, Steps c n s u ∧ u.Next c t := by
  obtain ⟨xs, hxs, hlength⟩ := h
  rcases List.eq_nil_or_concat xs with rfl | ⟨ys, x, rfl⟩
  · cases hlength
  · rw [List.concat_eq_append] at hxs hlength
    obtain ⟨u, hu, hlast⟩ := hxs.split
    cases hlast with
    | next first rest =>
      cases rest
      exact ⟨u, ⟨ys, hu, by simpa using hlength⟩, first.next⟩

/-- A run passes through as many states as it has steps. -/
theorem prior (h : Steps c n s t) (hm : m ≤ n) : ∃ u, Steps c m s u := by
  obtain ⟨xs, hxs, rfl⟩ := h
  rw [← List.take_append_drop m xs] at hxs
  obtain ⟨u, hu, -⟩ := hxs.split
  exact ⟨u, xs.take m, hu, List.length_take_of_le hm⟩

theorem keeps {P : State → Prop} (hP : ∀ s t, s.Next c t → P s → P t) (h : Steps c n s t) (hs : P s) : P t := by
  obtain ⟨xs, hxs, -⟩ := h
  exact hxs.keeps (fun s _ t hx => hP s t hx.next) hs

theorem reaches (h : Steps c n s t) : Reaches c s t := by
  obtain ⟨xs, hxs, -⟩ := h
  exact ⟨xs, hxs⟩

end Steps

namespace Reaches

theorem refl (s : State) : Reaches c s s :=
  ⟨[], .refl s⟩

theorem trans (h : Reaches c s t) (h' : Reaches c t u) : Reaches c s u := by
  obtain ⟨xs, hxs⟩ := h
  obtain ⟨ys, hys⟩ := h'
  exact ⟨xs ++ ys, hxs.trans hys⟩

theorem single (h : s.Next c t) : Reaches c s t :=
  (Steps.single h).reaches

theorem steps (h : Reaches c s t) : ∃ n, Steps c n s t := by
  obtain ⟨xs, hxs⟩ := h
  exact ⟨xs.length, xs, hxs, rfl⟩

end Reaches
end State

theorem Chunk.mem_of_get? {c : Chunk} {name : String} {g : Function} (h : c.get? name = some g) : g ∈ c.functions :=
  List.mem_of_find?_eq_some h

/-! ### Runs of a chunk -/

namespace Machine

/-- Instructions, none of which fails, are executed at the start of a run of a chunk and lead to a state. -/
def Executes (m : Machine) (c : Chunk) (done : List Execution) (s : State) : Prop :=
  ∃ main, entryPoint? c = some main ∧ Trail (State.Does c) done (m.start main) s

/-- A run of a chunk comes to a state after a number of instructions. -/
def After (m : Machine) (c : Chunk) (n : Nat) (s : State) : Prop :=
  ∃ done, m.Executes c done s ∧ done.length = n

/-- A state occurs in a run of a chunk. -/
def Visits (m : Machine) (c : Chunk) (s : State) : Prop :=
  ∃ done, m.Executes c done s

variable {m : Machine} {c : Chunk} {s t : State} {main : Function}

theorem entryPoint?_eq_some (h : entryPoint? c = some main) : main ∈ c.functions ∧ main.arity = 0 := by
  obtain ⟨hget, harity⟩ := Option.filter_eq_some_iff.mp h
  exact ⟨Chunk.mem_of_get? hget, eq_of_beq harity⟩

theorem visits_start (m : Machine) (hmain : entryPoint? c = some main) : m.Visits c (m.start main) :=
  ⟨[], main, hmain, .refl _⟩

theorem visits_of_reaches (hmain : entryPoint? c = some main) (h : State.Reaches c (m.start main) s) : m.Visits c s := by
  obtain ⟨done, hdone⟩ := h
  exact ⟨done, main, hmain, hdone⟩

/-- The states after a number of steps are those that as many steps lead to from the start of the entry point. -/
theorem after_iff {n : Nat} : m.After c n s ↔ ∃ main, entryPoint? c = some main ∧ State.Steps c n (m.start main) s := by
  constructor
  · rintro ⟨done, ⟨main, hmain, hdone⟩, hlength⟩
    exact ⟨main, hmain, done, hdone, hlength⟩
  · rintro ⟨main, hmain, done, hdone, hlength⟩
    exact ⟨done, ⟨main, hmain, hdone⟩, hlength⟩

theorem Executes.visits {done : List Execution} (h : m.Executes c done s) : m.Visits c s :=
  ⟨done, h⟩

theorem Visits.next (h : m.Visits c s) (hnext : s.Next c t) : m.Visits c t := by
  obtain ⟨done, main, hmain, hdone⟩ := h
  obtain ⟨x, hx⟩ := hnext.does
  exact ⟨done ++ [x], main, hmain, hdone.trans (.single hx)⟩

/-- What holds at the start of a run and is kept by every step of it holds in every state of the run. -/
theorem Visits.induction {P : State → Prop} (start : ∀ main, entryPoint? c = some main → P (m.start main))
    (next : ∀ s t, m.Visits c s → s.Next c t → P s → P t) (h : m.Visits c s) : P s := by
  obtain ⟨done, main, hmain, hdone⟩ := h
  have hkeeps := hdone.keeps (P := fun s => m.Visits c s ∧ P s)
    (fun s x t hx hs => ⟨hs.1.next hx.next, next s t hs.1 hx.next hs.2⟩) ⟨m.visits_start hmain, start main hmain⟩
  exact hkeeps.2

end Machine
end Bytecode
