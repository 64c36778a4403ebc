import Bytecode.Proofs.Machine.Streams
import Bytecode.Proofs.Safety.Sites

/-! An output with room for a limited number of bytes cuts off what is written at this number and changes nothing before that.
    As long as the texts fit, a run with the limited output is the run with an unlimited one, instruction by instruction
    (`step_withRoom`, `course?_of_le`); at the first text that does not fit it fails (`course?_of_lt`). -/

namespace Bytecode

/-! ### Cutting a text -/

theorem cut_behind {a : String} {n : Nat} (h : a.utf8ByteSize ≤ n) (b : String) :
    (a ++ b).toUTF8.data.extract 0 n = a.toUTF8.data ++ b.toUTF8.data.extract 0 (n - a.utf8ByteSize) := by
  have hsize : a.toUTF8.data.size = a.utf8ByteSize := String.size_toByteArray
  rw [bytes_append, Array.extract_append, Array.extract_eq_self_of_le (hsize ▸ h), hsize, Nat.zero_sub]

theorem cut_within {a : String} {n : Nat} (h : n ≤ a.utf8ByteSize) (b : String) :
    (a ++ b).toUTF8.data.extract 0 n = a.toUTF8.data.extract 0 n := by
  have hsize : a.toUTF8.data.size = a.utf8ByteSize := String.size_toByteArray
  rw [bytes_append, Array.extract_append, hsize, Nat.sub_eq_zero_of_le h, Array.extract_zero, Array.append_empty]

/-! ### States with other outputs -/

/-- The output with other room. -/
def Output.withRoom (room : Option Nat) (o : Output) : Output :=
  { o with room := room }

/-- The state with other room in its output. -/
def State.withRoom (room : Option Nat) (s : State) : State :=
  { s with output := s.output.withRoom room }

def Outcome.withRoom (room : Option Nat) : Outcome → Outcome
  | .running s => .running (s.withRoom room)
  | .faulted fault s => .faulted fault (s.withRoom room)

def Course.withRoom (room : Option Nat) (r : Course) : Course :=
  { r with state := r.state.withRoom room }

namespace State
variable {c : Chunk} {s t : State} {f : Frame} {callers : List Frame} {i : Instr} {room : Option Nat}

@[simp] theorem next?_withRoom : (s.withRoom room).next? = s.next? := rfl

@[simp] theorem withRoom_heap : (s.withRoom room).heap = s.heap := rfl

@[simp] theorem withRoom_input : (s.withRoom room).input = s.input := rfl

/-- No instruction but a write depends on the room. -/
theorem exec_withRoom (hi : i ≠ .write) :
    (s.withRoom room).exec c f callers i = (s.exec c f callers i).withRoom room := by
  cases i with
  | op op =>
    simp only [exec, withRoom_heap]
    cases op.apply s.heap f.stack with
    | error fault => rfl
    | ok r =>
      obtain ⟨stack, change⟩ := r
      cases change <;> rfl
  | load slot | store slot | jumpUnless target =>
    simp only [exec]
    split <;> rfl
  | jump target => rfl
  | call name =>
    simp only [exec, call]
    split
    · rfl
    · split <;> rfl
  | ret =>
    rw [exec, exec, leave_eq, leave_eq]
    rfl
  | write => exact absurd rfl hi
  | read =>
    simp only [exec, withRoom_input]
    rcases s.input.readLine with ⟨_ | _, input⟩ <;> rfl

theorem step_room (hroom : s.output.room = none) (hstep : s.step c f callers i = .running t) : t.output.room = none := by
  by_cases hwrite : i = .write
  · subst hwrite
    cases hstack : f.stack with
    | nil => rw [step_write_nil hstack] at hstep; cases hstep
    | cons v rest =>
      simp only [step_write hstack, Output.write_of_none hroom, Outcome.running.injEq] at hstep
      rw [← hstep]
      exact hroom
  · have houtput : t.output = s.output := (step_shared hstep).output hwrite
    rw [houtput, hroom]

/-- With limited room an instruction does what it does with unlimited room, or it is a write and there is not room enough. -/
theorem step_withRoom (hroom : s.output.room = none) (c : Chunk) (f : Frame) (callers : List Frame) (i : Instr)
    (limit : Nat) :
    ((Execution.text [(f, callers, i)]).utf8ByteSize ≤ limit ∧
      (s.withRoom (some limit)).step c f callers i =
        (s.step c f callers i).withRoom (some (limit - (Execution.text [(f, callers, i)]).utf8ByteSize))) ∨
    (limit < (Execution.text [(f, callers, i)]).utf8ByteSize ∧ i = .write ∧
      ∃ t, (s.withRoom (some limit)).step c f callers i = .faulted (.writeFailed Output.full) t ∧
        t.output.written =
          s.output.written ++ (Execution.text [(f, callers, i)]).toUTF8.data.extract 0 limit) := by
  -- Only a write looks at the room, so all other instructions do the same with any limit.
  by_cases hwrite : i = .write
  · subst hwrite
    cases hstack : f.stack with
    | nil =>
      rw [Execution.text_write_nil hstack]
      refine Or.inl ⟨Nat.zero_le _, ?_⟩
      rw [step_write_nil hstack, step_write_nil hstack]
      rfl
    | cons v rest =>
      rw [Execution.text_write hstack]
      rcases Nat.lt_or_ge limit v.text.utf8ByteSize with hlt | hle
      · refine Or.inr ⟨hlt, rfl, ?_⟩
        have hlimited : (s.withRoom (some limit)).output.room = some limit := rfl
        simp only [step_write hstack, Output.write_of_lt hlimited hlt]
        exact ⟨_, rfl, rfl⟩
      · refine Or.inl ⟨hle, ?_⟩
        have hlimited : (s.withRoom (some limit)).output.room = some limit := rfl
        simp only [step_write hstack, Output.write_of_le hlimited hle, Output.write_of_none hroom]
        rfl
  · rw [Execution.text_of_ne hwrite]
    exact Or.inl ⟨Nat.zero_le _, exec_withRoom hwrite⟩

/-- With unlimited room an instruction that fails has nothing to write. -/
theorem text_of_faulted {fault : Fault} (hroom : s.output.room = none) (hstep : s.step c f callers i = .faulted fault t) :
    Execution.text [(f, callers, i)] = "" := by
  by_cases hwrite : i = .write
  · subst hwrite
    cases hstack : f.stack with
    | nil => exact Execution.text_write_nil hstack
    | cons v rest => simp [step_write hstack, Output.write_of_none hroom] at hstep
  · exact Execution.text_of_ne hwrite

/-! ### Runs -/

section
variable {bound limit : Nat} {r : Course} {xs : List Execution}

theorem room_eq_of_trail (h : Trail (Does c) xs s t) (hroom : s.output.room = none) : t.output.room = none :=
  h.keeps (P := fun s => s.output.room = none) (fun _ _ _ hx hs => step_room hs hx.2) hroom

/-- With unlimited room a run has written the texts of its instructions, whether the last one has failed or not. -/
theorem course?_written (hroom : s.output.room = none) (h : course? c bound s = some r) :
    r.state.output.written = s.output.written ++ (Execution.text r.executed).toUTF8.data := by
  obtain ⟨done, t, -, hdone, ⟨-, rfl⟩ | ⟨f, callers, i, fault, u, -, hstep, rfl⟩⟩ := course?_eq_some h
  · exact hdone.written
  · have hlast := text_of_faulted (room_eq_of_trail hdone hroom) hstep
    rcases step_faulted_output hstep with houtput | ⟨rfl, v, rest, hstack, k, hk, -⟩
    · have htext : Execution.text (done ++ [(f, callers, i)]) = Execution.text done := by
        simpa [Execution.text] using hlast
      rw [htext, ← hdone.written]
      exact congrArg Output.written houtput
    · rw [← Execution.text_write hstack, hlast] at hk
      exact absurd hk (Nat.not_lt_zero k)

/-- If there is room for all that a run writes, limited room makes no difference. -/
theorem course?_of_le (hroom : s.output.room = none) (h : course? c bound s = some r)
    (hle : (Execution.text r.executed).utf8ByteSize ≤ limit) :
    course? c bound (s.withRoom (some limit)) =
      some (r.withRoom (some (limit - (Execution.text r.executed).utf8ByteSize))) := by
  induction bound generalizing s r limit with
  | zero => cases h
  | succ bound ih =>
    cases hn : s.next? with
    | none =>
      rw [course?_of_end hn] at h
      cases h
      exact course?_of_end hn
    | some next =>
      obtain ⟨f, callers, i⟩ := next
      have hlimited := step_withRoom hroom c f callers i limit
      cases hs : s.step c f callers i with
      | running t =>
        rw [course?_of_running hn hs, Option.map_eq_some_iff] at h
        obtain ⟨r, hr, rfl⟩ := h
        have htext : Execution.text (r.behind [(f, callers, i)]).executed =
            Execution.text [(f, callers, i)] ++ Execution.text r.executed := Execution.text_cons _ _
        rw [htext, String.utf8ByteSize_append] at hle ⊢
        -- What is written first fits, since all of it does.
        rcases hlimited with ⟨-, hlimited⟩ | ⟨hlt, -⟩
        · have hrest := ih (step_room hroom hs) hr (Nat.le_sub_of_add_le' hle)
          rw [hs] at hlimited
          refine (course?_of_running (next?_withRoom.trans hn) hlimited).trans ?_
          rw [hrest, Nat.sub_sub]
          rfl
        · omega
      | faulted fault t =>
        rw [course?_of_faulted hn hs] at h
        cases h
        rcases hlimited with ⟨-, hlimited⟩ | ⟨hlt, -⟩
        · rw [hs] at hlimited
          exact course?_of_faulted hn hlimited
        · exact absurd hle (Nat.not_le.mpr hlt)

/-- If there is not room for all that a run writes, the run goes on up to the write that does not fit and fails there. -/
theorem course?_of_lt (hroom : s.output.room = none) (h : course? c bound s = some r)
    (hlt : limit < (Execution.text r.executed).utf8ByteSize) :
    ∃ done f callers t, done ++ [(f, callers, .write)] <+: r.executed ∧
      course? c bound (s.withRoom (some limit)) =
        some ⟨done ++ [(f, callers, .write)], .error ⟨.writeFailed Output.full, some (f.site .write)⟩, t⟩ ∧
      t.output.written = s.output.written ++ (Execution.text r.executed).toUTF8.data.extract 0 limit := by
  induction bound generalizing s r limit with
  | zero => cases h
  | succ bound ih =>
    cases hn : s.next? with
    | none =>
      rw [course?_of_end hn] at h
      cases h
      exact absurd hlt (Nat.not_lt_zero _)
    | some next =>
      obtain ⟨f, callers, i⟩ := next
      cases hs : s.step c f callers i with
      | running t =>
        rw [course?_of_running hn hs, Option.map_eq_some_iff] at h
        obtain ⟨r, hr, rfl⟩ := h
        have htext : Execution.text (r.behind [(f, callers, i)]).executed =
            Execution.text [(f, callers, i)] ++ Execution.text r.executed := Execution.text_cons _ _
        rw [htext]
        rw [htext, String.utf8ByteSize_append] at hlt
        -- Either this text still fits and the cut is in the rest, or the cut is in this one.
        rcases step_withRoom hroom c f callers i limit with ⟨hle, hlimited⟩ | ⟨hlt', rfl, t', hlimited, hwritten⟩
        · obtain ⟨done, g, rest, u, hprefix, hcourse, hwritten⟩ :=
            ih (step_room hroom hs) hr (Nat.sub_lt_left_of_lt_add hle hlt)
          rw [hs] at hlimited
          refine ⟨(f, callers, i) :: done, g, rest, u, List.cons_prefix_cons.mpr ⟨rfl, hprefix⟩, ?_, ?_⟩
          · refine (course?_of_running (next?_withRoom.trans hn) hlimited).trans ?_
            rw [hcourse]
            rfl
          · rw [hwritten, step_written hs, cut_behind hle, Array.append_assoc]
        · refine ⟨[], f, callers, t', List.prefix_append _ _, course?_of_faulted hn hlimited, ?_⟩
          rw [hwritten, cut_within hlt'.le]
      | faulted fault t =>
        rw [course?_of_faulted hn hs] at h
        cases h
        -- A step that fails without a limit has written nothing, so nothing was cut.
        rw [text_of_faulted hroom hs] at hlt
        exact absurd hlt (Nat.not_lt_zero _)

end
end State

/-! ### Pieces -/

namespace Output

/-- Writes the pieces of a text one after the other, up to one that fails. -/
def writePieces (o : Output) : List String → Except String Unit × Output
  | [] => (.ok (), o)
  | piece :: rest =>
    match o.write piece with
    | (.ok (), o) => o.writePieces rest
    | (.error reason, o) => (.error reason, o)

theorem write_empty (o : Output) : o.write "" = (.ok (), o) := by
  have hbytes : o.written ++ "".toUTF8.data = o.written := Array.append_empty
  have hsize : "".utf8ByteSize = 0 := String.utf8ByteSize_empty
  cases hroom : o.room with
  | none => rw [write_of_none hroom, hbytes]
  | some room => rw [write_of_le hroom (hsize ▸ Nat.zero_le room), hbytes, hsize, Nat.sub_zero, ← hroom]

theorem write_append_of_ok {o o' : Output} {a : String} (h : o.write a = (.ok (), o')) (b : String) :
    o.write (a ++ b) = o'.write b := by
  cases hroom : o.room with
  | none =>
    rw [write_of_none hroom] at h
    cases h
    refine (write_of_none hroom).trans (Eq.symm (Eq.trans (write_of_none hroom) ?_))
    rw [bytes_append, Array.append_assoc]
  | some room =>
    rcases Nat.lt_or_ge room a.utf8ByteSize with hlt | hle
    · rw [write_of_lt hroom hlt] at h
      cases h
    · rw [write_of_le hroom hle] at h
      cases h
      have hsize : (a ++ b).utf8ByteSize = a.utf8ByteSize + b.utf8ByteSize := String.utf8ByteSize_append
      rcases Nat.lt_or_ge (room - a.utf8ByteSize) b.utf8ByteSize with hlt | hle'
      · rw [write_of_lt rfl hlt, write_of_lt hroom (by omega), cut_behind hle, ← Array.append_assoc]
      · rw [write_of_le rfl hle', write_of_le hroom (by omega), bytes_append, ← Array.append_assoc, hsize, Nat.sub_sub]

theorem write_append_of_error {o o' : Output} {a reason : String} (h : o.write a = (.error reason, o')) (b : String) :
    o.write (a ++ b) = (.error reason, o') := by
  rcases o.write_cases a with ⟨hok, -⟩ | ⟨room, hlt, hroom, hfull⟩
  · simp [h] at hok
  · have hsize : (a ++ b).utf8ByteSize = a.utf8ByteSize + b.utf8ByteSize := String.utf8ByteSize_append
    rw [write_of_lt hroom (by omega), cut_within hlt.le, ← hfull, h]

/-- It makes no difference in how many pieces a text is written. -/
theorem writePieces_eq (o : Output) (pieces : List String) : o.writePieces pieces = o.write (String.join pieces) := by
  induction pieces generalizing o with
  | nil => exact (write_empty o).symm
  | cons piece rest ih =>
    rw [writePieces, String.join_cons]
    split
    · rename_i o' hwrite
      rw [ih, write_append_of_ok hwrite]
    · rename_i reason o' hwrite
      rw [write_append_of_error hwrite]

end Output

/-! ### Machines -/

namespace Machine

/-- The machine with other room in its output. -/
def withRoom (room : Option Nat) (m : Machine) : Machine :=
  { m with output := m.output.withRoom room }

/-- The end of a run passes the room on that the run has left. -/
theorem finish_withRoom (m : Machine) (room room' : Option Nat) (settings : Settings) (d : Diagnostics) (r : Course) :
    (m.withRoom room).finish ((r.withRoom room').ending settings d) =
      ((m.finish (r.ending settings d)).1, (m.finish (r.ending settings d)).2.withRoom room') := by
  have hflush : (r.withRoom room').state.output.flush = r.state.output.flush := rfl
  have hresult : (r.withRoom room').result = r.result := rfl
  unfold finish
  simp only [Course.ending_result, Course.ending_state, hflush, hresult]
  cases r.result with
  | error failure => rfl
  | ok _ => cases r.state.output.flush <;> rfl

end Machine

namespace Safety
open Machine

/-- A full output cuts off what is written and changes nothing before that. Let a run with unlimited room end, normally or with
a failure, and have written some bytes. With room for all of them the run ends in the same way and leaves the same behind.
With less room it fails at a write, the last of the instructions that it has executed, which are the first ones of the other
run; it has then written as many of the bytes, from the first one on, as there is room for. A text may be written in pieces,
and an empty text is written without fail, whatever the room. -/
theorem full_output_cuts_off {m m' : Machine} {c : Chunk} {bound : Nat} {result : Except Failure Unit}
    (h : (m.withRoom none).run? c bound = some (result, m')) (limit : Nat) :
    (∃ bytes, m'.output.written = m.output.written ++ bytes ∧
      (bytes.size ≤ limit → (m.withRoom (some limit)).run? c bound =
        some (result, m'.withRoom (some (limit - bytes.size)))) ∧
      (limit < bytes.size → ∃ r r' f callers m'', (m.withRoom none).course? c bound = some r ∧
        (m.withRoom (some limit)).course? c bound = some r' ∧ r'.executed <+: r.executed ∧
        r'.executed.getLast? = some (f, callers, .write) ∧ (Fault.writeFailed Output.full).kind = .io ∧
        (m.withRoom (some limit)).run? c bound =
          some (.error ⟨.writeFailed Output.full, some (f.site .write)⟩, m'') ∧
        m''.output.written = m.output.written ++ bytes.extract 0 limit)) ∧
    (∀ (o : Output) pieces, o.writePieces pieces = o.write (String.join pieces)) ∧
    ∀ (s : State) (f : Frame) callers v rest, f.stack = v :: rest → v.text = "" →
      s.step c f callers .write = .running (s.withFrames ({ f with pc := f.pc + 1, stack := rest } :: callers)) := by
  refine ⟨?_, Output.writePieces_eq, ?_⟩
  · cases hmain : entryPoint? c with
    | none =>
      simp only [run?, hmain, Option.some.injEq, Prod.mk.injEq] at h
      obtain ⟨rfl, rfl⟩ := h
      refine ⟨#[], (Array.append_empty).symm, fun _ => ?_, fun hlt => absurd hlt (Nat.not_lt_zero _)⟩
      simp only [run?, hmain]
      rfl
    | some main =>
      rw [run?_eq_course? hmain, Option.map_eq_some_iff] at h
      obtain ⟨r, hr, hfinish⟩ := h
      replace hfinish : (m.withRoom none).finish (r.ending m.settings m.diagnostics) = (result, m') := hfinish
      have hcourse : State.course? c bound ((m.withRoom none).start main) = some r :=
        (course?_eq _ hmain bound).symm.trans hr
      -- The bytes are those of the text that the executed writes have in order.
      have hsize : (Execution.text r.executed).toUTF8.data.size = (Execution.text r.executed).utf8ByteSize :=
        String.size_toByteArray
      refine ⟨(Execution.text r.executed).toUTF8.data, ?_, fun hle => ?_, fun hlt => ?_⟩
      · have hstate := ((m.withRoom none).finish_state (r.ending m.settings m.diagnostics)).2
        rw [hfinish] at hstate
        rw [hstate]
        exact State.course?_written rfl hcourse
      · have hlimited : (m.withRoom (some limit)).course? c bound =
            some (r.withRoom (some (limit - (Execution.text r.executed).utf8ByteSize))) :=
          (course?_eq _ hmain bound).trans (State.course?_of_le rfl hcourse (hsize ▸ hle))
        have hends := (m.withRoom none).finish_withRoom (some limit) (some (limit - (Execution.text r.executed).utf8ByteSize))
          m.settings m.diagnostics r
        rw [hfinish] at hends
        rw [run?_of_course? hlimited, hsize]
        exact congrArg some hends
      · obtain ⟨done, f, callers, t, hprefix, hlimited, hwritten⟩ := State.course?_of_lt rfl hcourse (hsize ▸ hlt)
        replace hlimited := (course?_eq (m.withRoom (some limit)) hmain bound).trans hlimited
        exact ⟨r, _, f, callers, _, hr, hlimited, hprefix, List.getLast?_concat, rfl, run?_of_course? hlimited, hwritten⟩
  · intro s f callers v rest hstack htext
    rw [State.step_write hstack, htext, Output.write_empty]
    rfl

/-- A chunk that writes two texts, the second of which starts with a character of two bytes. -/
def accenting : Chunk where
  functions := [⟨"main", 0, #[.op (.push (.str "a")), .write, .op (.push (.str "éb")), .write, .ret]⟩]

/-- With room for two bytes the output ends in the middle of the character. -/
theorem accenting_is_cut_off :
    ∃ m', (Machine.withRoom none {}).run? accenting 9 = some (.ok (), m') ∧ m'.output.written = #[97, 195, 169, 98] ∧
      ∃ f m'', (Machine.withRoom (some 2) {}).run? accenting 9 =
          some (.error ⟨.writeFailed Output.full, some (Frame.site f .write)⟩, m'') ∧
        m''.output.written = #[97, 195] := by
  obtain ⟨m', hrun, hwritten⟩ : ∃ m', (Machine.withRoom none {}).run? accenting 9 = some (.ok (), m') ∧
      m'.output.written = #[97, 195, 169, 98] := ⟨_, rfl, rfl⟩
  obtain ⟨⟨bytes, hbytes, -, hcut⟩, -⟩ := full_output_cuts_off hrun 2
  obtain rfl : bytes = #[97, 195, 169, 98] := by
    rw [hwritten] at hbytes
    exact ((Array.empty_append).symm.trans hbytes.symm)
  obtain ⟨-, -, f, -, m'', -, -, -, -, -, hlimited, hwritten'⟩ := hcut (by decide)
  exact ⟨m', hrun, hwritten, f, m'', hlimited, hwritten'⟩

end Safety
end Bytecode
