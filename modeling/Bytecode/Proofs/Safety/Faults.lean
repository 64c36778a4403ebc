import Bytecode.Proofs.Machine.Realization

/-! An instruction that fails has no effect outside of the frames, but for a part of a text that a write had no room for and a
    line that a read could not make out. What a failed run leaves behind for the next one is therefore what its instructions
    before the failure have done. -/

namespace Bytecode
namespace Engine
variable {e e' : Engine} {c : Chunk} {f : Frame} {callers : List Frame} {i : Instr} {fault : Fault} {r : Except Fault Unit}

/-! ### One instruction -/

/-- The engine behind an instruction has what the instruction has left. -/
theorem step_left (e : Engine) (c : Chunk) (f : Frame) (callers : List Frame) (i : Instr) :
    ∃ frames, (e.step c f callers i).2 = e.resume (left (Exec.execute e.refuses c i (e.live f))) frames := by
  unfold step
  split <;> rename_i hx <;> exact ⟨_, by rw [hx]; rfl⟩

theorem step_output (h : e.step c f callers i = (r, e')) (hwrite : i ≠ .write) : e'.output = e.output := by
  obtain ⟨frames, hleft⟩ := e.step_left c f callers i
  rw [h] at hleft
  rw [show e' = _ from hleft]
  exact Exec.spares_output e.refuses c hwrite (e.live f)

theorem step_input (h : e.step c f callers i = (r, e')) (hread : i ≠ .read) : e'.input = e.input := by
  obtain ⟨frames, hleft⟩ := e.step_left c f callers i
  rw [h] at hleft
  rw [show e' = _ from hleft]
  exact Exec.spares_input e.refuses c hread (e.live f)

/-- An instruction that fails has left the tables of the heap as they were. -/
theorem step_faulted_store (h : e.step c f callers i = (.error fault, e')) : e'.store = e.store := by
  cases hx : Exec.execute e.refuses c i (e.live f) with
  | ok control l => cases control <;> simp [step, hx] at h
  | error fault' l =>
    rw [step_of_error hx] at h
    cases h
    exact Exec.failsEarly_execute e.refuses c i (e.live f) _ _ hx

/-- An instruction that succeeds has written its text as a whole. -/
theorem step_written (h : e.step c f callers i = (.ok (), e')) :
    e'.output.written = e.output.written ++ (Execution.text [(f, callers, i)]).toUTF8.data := by
  by_cases hwrite : i = .write
  · subst hwrite
    cases hstack : f.stack with
    | nil =>
      rw [step_write_nil hstack] at h
      cases h
    | cons v rest =>
      rw [step_write hstack, Prod.mk.injEq] at h
      rw [← h.2, Execution.text_write hstack]
      rcases e.output.write_cases v.text with ⟨-, hwritten⟩ | ⟨room, -, -, hfull⟩
      · exact hwritten
      · rw [hfull] at h
        cases h.1
  · rw [Execution.text_of_ne hwrite, step_output h hwrite]
    exact (Array.append_empty).symm

/-- A failed instruction has written nothing or, if it is a write, a proper part from the start of its text. -/
theorem step_faulted_output (h : e.step c f callers i = (.error fault, e')) :
    e'.output = e.output ∨ i = .write ∧ ∃ v rest, f.stack = v :: rest ∧ ∃ k < v.text.utf8ByteSize,
      e'.output = { e.output with written := e.output.written ++ v.text.toUTF8.data.extract 0 k, room := some 0 } := by
  by_cases hwrite : i = .write
  · subst hwrite
    cases hstack : f.stack with
    | nil =>
      rw [step_write_nil hstack] at h
      cases h
      exact Or.inl rfl
    | cons v rest =>
      rw [step_write hstack, Prod.mk.injEq] at h
      rcases e.output.write_cases v.text with ⟨hok, -⟩ | ⟨k, hk, -, hfull⟩
      · rw [hok] at h
        cases h.1
      · rw [hfull] at h
        exact Or.inr ⟨rfl, v, rest, rfl, k, hk, by rw [← h.2]⟩
  · exact Or.inl (step_output h hwrite)

/-- A read has taken a line from the input, whether it fails or not. -/
theorem step_read_input (h : e.step c f callers .read = (r, e')) : e'.input = e.input.readLine.2 := by
  rcases hread : e.input.readLine with ⟨reason | line, input⟩
  · rw [step_read_error hread] at h
    cases h
    rfl
  · rw [step_read_ok hread] at h
    cases h
    rfl

/-- A read that fails has taken a line that is not empty. -/
theorem step_faulted_read (h : e.step c f callers .read = (.error fault, e')) :
    ∃ line, line ≠ [] ∧ e.input.rest = line ++ e'.input.rest ∧ Input.IsLine line e'.input.rest := by
  obtain ⟨line, hline, hends⟩ := e.input.readLine_line
  rw [← step_read_input h] at hline hends
  refine ⟨line, ?_, hline, hends⟩
  rintro rfl
  -- There is no empty line but at the end of the input, where reading does not fail.
  rcases hends with ⟨text, htext, -⟩ | ⟨-, hrest⟩
  · simp at htext
  · have hempty : e.input = ⟨[]⟩ := congrArg Input.mk (hline.trans hrest)
    have hread : e.input.readLine = (.ok "", ⟨[]⟩) := by rw [hempty]; rfl
    rw [step_read_ok hread] at h
    cases h

theorem step_lines (h : e.step c f callers i = (.ok (), e')) :
    e'.input = e.input.skip ([(f, callers, i)].countP Execution.isRead) := by
  by_cases hread : i = .read
  · subst hread
    exact step_read_input h
  · simpa [Execution.isRead_of_ne hread, Input.skip] using step_input h hread

/-! ### Runs -/

theorem trail_written {done : List Execution} (h : Trail (Does c) done e e') :
    e'.output.written = e.output.written ++ (Execution.text done).toUTF8.data := by
  induction h with
  | refl e => exact (Array.append_empty).symm
  | @next x xs _ _ _ first _ ih =>
    rw [ih, step_written first.2, Execution.text_cons x xs, bytes_append, Array.append_assoc]

theorem trail_lines {done : List Execution} (h : Trail (Does c) done e e') :
    e'.input = e.input.skip (done.countP Execution.isRead) := by
  induction h with
  | refl e => rfl
  | @next x xs _ _ _ first _ ih =>
    rw [ih, step_lines first.2]
    cases hread : Execution.isRead x <;> simp [hread, Input.skip]

/-- A run that fails has executed instructions up to the one that has failed. -/
theorem go?_error {bound : Nat} {failure : Failure} (h : e.go? c bound = some (.error failure, e')) :
    ∃ done s f callers i, done.length < bound ∧ Trail (Does c) done e s ∧ s.next? = some (f, callers, i) ∧
      s.step c f callers i = (.error failure.fault, e') ∧ failure.site = some (f.site i) := by
  induction bound generalizing e with
  | zero => cases h
  | succ bound ih =>
    unfold go? at h
    cases hnext : e.next? with
    | none =>
      rw [hnext] at h
      cases h
    | some x =>
      obtain ⟨f, callers, i⟩ := x
      simp only [hnext] at h
      rcases hstep : e.step c f callers i with ⟨fault | ⟨⟨⟩⟩, t⟩
      · simp only [hstep] at h
        cases h
        exact ⟨[], e, f, callers, i, Nat.succ_pos _, .refl e, hnext, hstep, rfl⟩
      · simp only [hstep] at h
        have hfirst : e.Does c (f, callers, i) t := ⟨hnext, hstep⟩
        obtain ⟨done, s, g, rest, j, hlt, hdone, hlast⟩ := ih h
        exact ⟨(f, callers, i) :: done, s, g, rest, j, Nat.succ_lt_succ hlt, .next hfirst hdone, hlast⟩

theorem run?_error {bound : Nat} {failure : Failure} {site : Site} (h : e.run? c bound = some (.error failure, e'))
    (hsite : failure.site = some site) :
    ∃ done s f callers i t, done.length < bound ∧ e.Executes c done s ∧ s.next? = some (f, callers, i) ∧
      s.step c f callers i = (.error failure.fault, t) ∧ site = f.site i ∧ e' = { t with frames := [] } := by
  unfold run? at h
  cases hmain : Machine.entryPoint? c with
  | none =>
    simp only [hmain, Option.some.injEq, Prod.mk.injEq, Except.error.injEq] at h
    rw [← h.1] at hsite
    cases hsite
  | some main =>
    simp only [hmain, Option.map_eq_some_iff] at h
    obtain ⟨⟨result, t⟩, hgo, hfinish⟩ := h
    cases result with
    | error failure' =>
      simp only [finish, Prod.mk.injEq, Except.error.injEq] at hfinish
      obtain ⟨rfl, rfl⟩ := hfinish
      obtain ⟨done, s, f, callers, i, hlt, hdone, hnext, hstep, hfailed⟩ := go?_error hgo
      exact ⟨done, s, f, callers, i, t, hlt, ⟨main, hmain, hdone⟩, hnext, hstep,
        Option.some.inj (hsite.symm.trans hfailed), rfl⟩
    | ok u =>
      unfold finish at hfinish
      cases hflush : t.output.flush with
      | ok u => simp [hflush] at hfinish
      | error reason =>
        -- The failure to flush has no site.
        simp only [hflush, Prod.mk.injEq, Except.error.injEq] at hfinish
        rw [← hfinish.1] at hsite
        cases hsite

end Engine

namespace Safety
open Engine

/-- A failed instruction has no effect outside of the frames. If a run fails at an instruction, the tables of the heap and the
next number are those that the instructions before the failure have led to. The output holds what these have written, with a
proper part of the next text behind it if a write has failed for want of room. The input goes on behind the lines that they
have read, and behind one more if a read has failed. So the next run finds what it would have found if the run had stopped
before this instruction, but for these exceptions. The machine whose heap the tables represent fails in the same way at the
same instruction, and also keeps the heap that it had before. -/
theorem failed_instruction_has_no_effect {e e' : Engine} {c : Chunk} {bound : Nat} {failure : Failure} {site : Site}
    (h : e.run? c bound = some (.error failure, e')) (hsite : failure.site = some site) :
    ∃ done s f callers i, e.Executes c done s ∧ s.next? = some (f, callers, i) ∧ site = f.site i ∧
      s.output.written = e.output.written ++ (Execution.text done).toUTF8.data ∧
      s.input = e.input.skip (done.countP Execution.isRead) ∧
      e'.store = s.store ∧
      (e'.output = s.output ∨ i = .write ∧ ∃ v rest, f.stack = v :: rest ∧ ∃ k < v.text.utf8ByteSize,
        e'.output = { s.output with written := s.output.written ++ v.text.toUTF8.data.extract 0 k, room := some 0 }) ∧
      (i ≠ .read → e'.input = s.input) ∧
      (i = .read → ∃ line, line ≠ [] ∧ s.input.rest = line ++ e'.input.rest ∧ Input.IsLine line e'.input.rest) ∧
      (∀ c' bound', e'.run? c' bound' = { s with frames := [], input := e'.input, output := e'.output }.run? c' bound') ∧
      ∀ m : Machine, e.Shares m.heap m.input m.output → m.heap.objectCount + bound < 2 ^ 64 →
        ∃ m' t, m.run? c bound = some (.error failure, m') ∧ e'.Shares m'.heap m'.input m'.output ∧
          m.Executes c done t ∧ s.Realizes t ∧ m'.heap = t.heap := by
  obtain ⟨done, s, f, callers, i, t, hlt, hdone, hnext, hstep, hi, rfl⟩ := run?_error h hsite
  obtain ⟨main, hmain, htrail⟩ := id hdone
  have hstore : t.store = s.store := step_faulted_store hstep
  have hrefuses : t.refuses = s.refuses := by
    obtain ⟨frames, hleft⟩ := s.step_left c f callers i
    rw [hstep] at hleft
    rw [show t = _ from hleft]
    rfl
  have houtput := step_faulted_output hstep
  have hwritten := trail_written htrail
  have hlines := trail_lines htrail
  refine ⟨done, s, f, callers, i, hdone, hnext, hi, hwritten, hlines, hstore, houtput, fun hread => ?_, ?_,
    fun c' bound' => ?_, fun m hshares hfew => ?_⟩
  · have hinput := step_input hstep hread
    exact hinput
  · rintro rfl
    have hline := step_faulted_read hstep
    exact hline
  · rw [← hstore, ← hrefuses]
  · have hruns := hshares.run? (c := c) hfew
    rw [h] at hruns
    generalize hrun : m.run? c bound = r at hruns
    cases hruns with
    | @some _ r hends =>
      obtain ⟨result, m'⟩ := r
      obtain ⟨rfl, hleft⟩ := hends
      obtain ⟨u, hu, hrealizes⟩ := (hshares.start main).trail htrail (by
        show m.heap.objectCount + done.length < 2 ^ 64
        omega)
      refine ⟨m', u, rfl, hleft, ⟨main, hmain, hu⟩, hrealizes, ?_⟩
      -- The same tables represent the heap before the failure and the one that is left behind.
      have hcount : u.heap.objectCount ≤ m.heap.objectCount + done.length :=
        State.Steps.objectCount_le ⟨done, hu, rfl⟩
      have hrep : s.store.Represents m'.heap := hstore ▸ hleft.store
      have hobjects := hrealizes.shares.store.objects_eq hrep (by omega)
      have hsame : m'.heap.refuses = u.heap.refuses :=
        hleft.refuses.symm.trans (hrefuses.trans hrealizes.shares.refuses)
      show (⟨m'.heap.objects, m'.heap.refuses⟩ : Heap) = ⟨u.heap.objects, u.heap.refuses⟩
      rw [hobjects, hsame]

/-- A chunk that writes a line of its input, allocates a struct and writes a longer text. -/
def overflowing : Chunk where
  functions := [⟨"main", 0, #[.read, .write, .op .newStruct, .op (.push (.str "cde")), .write, .ret]⟩]

/-- An engine with a line in its input and room for three bytes in its output. -/
def narrowEngine : Engine where
  input := ⟨[97, 98, 10]⟩
  output := { room := some 3 }

/-- The machine that the engine realizes. -/
def narrowMachine : Machine where
  input := narrowEngine.input
  output := narrowEngine.output

/-- The second write fails and leaves one byte; the line, the first write and the struct stay. -/
theorem overflowing_keeps_effects :
    ∃ e', narrowEngine.run? overflowing 9 =
        some (.error ⟨.writeFailed Output.full, some ⟨"main", 4, "WRITE()"⟩⟩, e') ∧
      e'.output.written = #[97, 98, 99] ∧ e'.store.next = 2024 ∧ e'.store.objectCount = 1 ∧
      ∃ done s, narrowEngine.Executes overflowing done s ∧ e'.store = s.store ∧ e'.input = s.input ∧
        s.output.written = narrowEngine.output.written ++ (Execution.text done).toUTF8.data := by
  obtain ⟨e', hrun, hwritten, hnext⟩ : ∃ e', narrowEngine.run? overflowing 9 =
        some (.error ⟨.writeFailed Output.full, some ⟨"main", 4, "WRITE()"⟩⟩, e') ∧
      e'.output.written = #[97, 98, 99] ∧ e'.store.next = 2024 := ⟨_, rfl, rfl, rfl⟩
  obtain ⟨done, s, f, callers, i, hdone, -, hsite, houtput, -, hstore, -, hinput, -, -, hmachine⟩ :=
    failed_instruction_has_no_effect hrun rfl
  have hread : i ≠ .read := by
    rintro rfl
    have htext : "WRITE()" = "READ()" := congrArg Site.instruction hsite
    exact absurd htext (by decide)
  -- The struct is counted in the heap of the machine.
  have hcount : e'.store.objectCount = 1 := by
    obtain ⟨r, hr, hobjects⟩ : ∃ r, narrowMachine.run? overflowing 9 = some r ∧ r.2.heap.objectCount = 1 := ⟨_, rfl, rfl⟩
    obtain ⟨m', t, hm, hleft, -⟩ := hmachine narrowMachine ⟨Store.represents_new, rfl, rfl, rfl⟩ (by decide)
    obtain rfl := Option.some.inj (hr.symm.trans hm)
    exact hleft.store.count.trans hobjects
  exact ⟨e', hrun, hwritten, hnext, hcount, done, s, hdone, hstore, hinput hread, houtput⟩

end Safety
end Bytecode
