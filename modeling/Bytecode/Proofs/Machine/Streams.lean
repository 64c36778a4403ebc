import Bytecode.Proofs.Heap.Tables
import Bytecode.Proofs.Machine.Course
import Bytecode.Proofs.Machine.Effect

/-! What instructions do outside of the frames. Each makes no more than one change to the heap, only a write touches the
    output and only a read the input (`exec_shared`). So the text that a run has written and the lines that it has read are
    those of its instructions (`Trail.written`, `Trail.input`). -/

namespace Bytecode

/-- The state that an instruction leaves behind, also where it fails. -/
def Outcome.state : Outcome → State
  | .running s | .faulted _ s => s

namespace State

/-- What an instruction leaves of the heap and the streams of a state. -/
structure Shared (s : State) (i : Instr) (t : State) : Prop where
  heap : ∃ change, t.heap = (s.change change).heap
  output : i ≠ .write → t.output = s.output
  input : i ≠ .read → t.input = s.input

variable {c : Chunk} {s t : State} {f : Frame} {callers : List Frame} {i : Instr}

/-- A state that differs in its frames alone. -/
theorem Shared.of_frames {frames : List Frame} : s.Shared i (s.withFrames frames) :=
  ⟨⟨none, rfl⟩, fun _ => rfl, fun _ => rfl⟩

theorem Shared.refl : s.Shared i s :=
  ⟨⟨none, rfl⟩, fun _ => rfl, fun _ => rfl⟩

/-- An instruction makes no more than one change to the heap, and only a write touches the output, only a read the input. -/
theorem exec_shared (c : Chunk) (s : State) (f : Frame) (callers : List Frame) (i : Instr) :
    s.Shared i (s.exec c f callers i).state := by
  cases i with
  | op op =>
    simp only [exec]
    split
    -- Only an operation changes the heap, and only once.
    · rename_i stack change _
      cases change with
      | none => exact .of_frames
      | some change => exact ⟨⟨some change, rfl⟩, fun _ => rfl, fun _ => rfl⟩
    · exact .refl
  | load slot | store slot | jumpUnless target =>
    simp only [exec]
    split
    · exact .of_frames
    · exact .refl
  | jump target => exact .of_frames
  | call name =>
    simp only [exec, call]
    split
    · exact .refl
    · split
      · exact .refl
      · exact .of_frames
  | ret =>
    rw [exec, leave_eq]
    exact .of_frames
  | write =>
    refine ⟨⟨none, ?_⟩, fun hwrite => absurd rfl hwrite, fun _ => ?_⟩ <;>
    · simp only [exec]
      split
      · split <;> rfl
      · rfl
  | read =>
    refine ⟨⟨none, ?_⟩, fun _ => ?_, fun hread => absurd rfl hread⟩ <;>
    · simp only [exec]
      split <;> rfl

theorem step_write {v : Value} {rest : Operands} (hstack : f.stack = v :: rest) :
    s.step c f callers .write =
      match (s.output.write v.text).1 with
      | .ok () => .running
        { s with frames := { f with pc := f.pc + 1, stack := rest } :: callers, output := (s.output.write v.text).2 }
      | .error reason => .faulted (.writeFailed reason) { s with output := (s.output.write v.text).2 } := by
  simp only [step, exec, hstack, Operands.pop]
  rcases s.output.write v.text with ⟨_ | _, output⟩ <;> rfl

theorem step_write_nil (hstack : f.stack = []) : s.step c f callers .write = .faulted .underflow s := by
  simp only [step, exec, hstack, Operands.pop]

theorem step_read :
    s.step c f callers .read =
      match s.input.readLine.1 with
      | .ok line => .running
        { s with frames := { f with pc := f.pc + 1, stack := .str line :: f.stack } :: callers, input := s.input.readLine.2 }
      | .error reason => .faulted (.readFailed reason) { s with input := s.input.readLine.2 } := by
  simp only [step, exec]
  rcases s.input.readLine with ⟨_ | _, input⟩ <;> rfl

end State

/-! ### The streams -/

theorem bytes_append (a b : String) : (a ++ b).toUTF8.data = a.toUTF8.data ++ b.toUTF8.data := by
  simp only [String.toUTF8_eq_toByteArray, String.toByteArray_append, ByteArray.data_append]

namespace Output
variable {o : Output} {text : String}

theorem write_of_none (hroom : o.room = none) :
    o.write text = (.ok (), { o with written := o.written ++ text.toUTF8.data }) := by
  rw [write, writeBytes, hroom]

theorem write_of_le {room : Nat} (hroom : o.room = some room) (hle : text.utf8ByteSize ≤ room) :
    o.write text =
      (.ok (), { o with written := o.written ++ text.toUTF8.data, room := some (room - text.utf8ByteSize) }) := by
  have hsize : text.toUTF8.data.size = text.utf8ByteSize := String.size_toByteArray
  simp only [write, writeBytes, hroom, hsize, if_pos hle]

theorem write_of_lt {room : Nat} (hroom : o.room = some room) (hlt : room < text.utf8ByteSize) :
    o.write text =
      (.error full, { o with written := o.written ++ text.toUTF8.data.extract 0 room, room := some 0 }) := by
  have hsize : text.toUTF8.data.size = text.utf8ByteSize := String.size_toByteArray
  simp only [write, writeBytes, hroom, hsize, if_neg (Nat.not_le.mpr hlt)]

/-- A write fails if there is no room for the whole text. Otherwise it has put the text behind what was written before. -/
theorem write_cases (o : Output) (text : String) :
    ((o.write text).1 = .ok () ∧ (o.write text).2.written = o.written ++ text.toUTF8.data) ∨
      ∃ room < text.utf8ByteSize, o.room = some room ∧ o.write text =
        (.error full, { o with written := o.written ++ text.toUTF8.data.extract 0 room, room := some 0 }) := by
  cases hroom : o.room with
  | none => exact Or.inl (by simp only [write_of_none hroom, and_self])
  | some room =>
    rcases Nat.lt_or_ge room text.utf8ByteSize with hlt | hle
    · exact Or.inr ⟨room, hlt, rfl, write_of_lt hroom hlt⟩
    · exact Or.inl (by simp only [write_of_le hroom hle, and_self])

end Output

namespace Input

/-- A line at the start of the input and what is behind it: the line goes up to the first line feed and includes it, or is
everything if there is none. -/
def IsLine (line rest : List UInt8) : Prop :=
  (∃ text, line = text ++ [10] ∧ 10 ∉ text) ∨ (10 ∉ line ∧ rest = [])

/-- What is left of the input after a number of lines. -/
def skip : Nat → Input → Input
  | 0, i => i
  | n + 1, i => skip n i.readLine.2

theorem readLine_rest (i : Input) : i.readLine.2.rest = (splitLine i.rest).2.2 := by
  unfold readLine
  dsimp only
  split <;> rfl

/-- Whether it is a text or not, a line that is read is taken from the input. -/
theorem readLine_line (i : Input) : ∃ line, i.rest = line ++ i.readLine.2.rest ∧ IsLine line i.readLine.2.rest := by
  rw [readLine_rest, splitLine]
  have hsplit : i.rest.takeWhile (· != 10) ++ i.rest.dropWhile (· != 10) = i.rest := List.takeWhile_append_dropWhile
  have hno : 10 ∉ i.rest.takeWhile (· != 10) := fun hmem => by
    simpa using List.all_eq_true.mp List.all_takeWhile 10 hmem
  cases hrest : i.rest.dropWhile (· != 10) with
  | nil =>
    rw [hrest, List.append_nil] at hsplit
    exact ⟨i.rest, (List.append_nil _).symm, Or.inr ⟨hsplit ▸ hno, rfl⟩⟩
  | cons b rest =>
    obtain rfl : b = 10 := by
      have hhead := List.head?_dropWhile_not (· != 10) i.rest
      rw [hrest] at hhead
      simpa using hhead
    refine ⟨i.rest.takeWhile (· != 10) ++ [10], ?_, Or.inl ⟨_, rfl, hno⟩⟩
    rw [List.append_assoc, List.singleton_append, ← hrest, hsplit]

end Input

namespace Execution

/-- The values that an instruction writes when it is executed. -/
def written : Execution → List Value
  | (f, _, .write) => f.stack.head?.toList
  | _ => []

/-- The text that instructions write. -/
def text (xs : List Execution) : String :=
  String.join ((xs.flatMap written).map Value.text)

def isRead : Execution → Bool
  | (_, _, .read) => true
  | _ => false

theorem text_cons (x : Execution) (xs : List Execution) : text (x :: xs) = text [x] ++ text xs := by
  simp [text]

section
variable {f : Frame} {callers : List Frame} {i : Instr}

theorem text_write {v : Value} {rest : Operands} (hstack : f.stack = v :: rest) : text [(f, callers, .write)] = v.text := by
  simp [text, written, hstack]

theorem text_write_nil (hstack : f.stack = []) : text [(f, callers, .write)] = "" := by
  simp [text, written, hstack]

theorem text_of_ne (h : i ≠ .write) : text [(f, callers, i)] = "" := by
  cases i with
  | write => exact absurd rfl h
  | _ => rfl

theorem isRead_of_ne (h : i ≠ .read) : isRead (f, callers, i) = false := by
  cases i with
  | read => exact absurd rfl h
  | _ => rfl

end

end Execution

namespace State
variable {c : Chunk} {s t : State} {f : Frame} {callers : List Frame} {i : Instr} {xs : List Execution}

theorem step_shared {x : Outcome} (h : s.step c f callers i = x) : s.Shared i x.state :=
  h ▸ exec_shared c s { f with pc := f.pc + 1 } callers i

/-- An instruction allocates no more than one object. -/
theorem Next.objectCount_le (h : s.Next c t) : t.heap.objectCount ≤ s.heap.objectCount + 1 := by
  obtain ⟨f, callers, i, -, hstep⟩ := h
  obtain ⟨change, hheap⟩ := (step_shared hstep).heap
  replace hheap : t.heap = (s.change change).heap := hheap
  rw [hheap]
  cases change with
  | none => exact Nat.le_succ _
  | some change =>
    show (s.heap.apply change).objectCount ≤ _
    rw [← Heap.length_shapes, ← Heap.length_shapes, Heap.shapes_apply, List.length_append]
    cases change.shape? <;> simp

theorem Steps.objectCount_le {n : Nat} (h : Steps c n s t) : t.heap.objectCount ≤ s.heap.objectCount + n := by
  induction h with
  | refl s => exact Nat.le_refl _
  | next hnext _ ih =>
    have hone := hnext.objectCount_le
    omega

/-- An instruction that succeeds has written its text as a whole. -/
theorem step_written (hstep : s.step c f callers i = .running t) :
    t.output.written = s.output.written ++ (Execution.text [(f, callers, i)]).toUTF8.data := by
  by_cases hwrite : i = .write
  · subst hwrite
    cases hstack : f.stack with
    | nil => rw [step_write_nil hstack] at hstep; cases hstep
    | cons v rest =>
      rw [step_write hstack] at hstep
      rcases s.output.write_cases v.text with ⟨hok, hwritten⟩ | ⟨room, -, -, hfull⟩
      · simp only [hok, Outcome.running.injEq] at hstep
        rw [← hstep, Execution.text_write hstack]
        exact hwritten
      · simp [hfull] at hstep
  · have houtput : t.output = s.output := (step_shared hstep).output hwrite
    rw [houtput, Execution.text_of_ne hwrite]
    exact (Array.append_empty).symm

/-- A failed instruction has written nothing or, if it is a write, a proper part from the start of its text. -/
theorem step_faulted_output {fault : Fault} (h : s.step c f callers i = .faulted fault t) :
    t.output = s.output ∨ i = .write ∧ ∃ v rest, f.stack = v :: rest ∧ ∃ k < v.text.utf8ByteSize,
      t.output = { s.output with written := s.output.written ++ v.text.toUTF8.data.extract 0 k, room := some 0 } := by
  by_cases hwrite : i = .write
  · subst hwrite
    cases hstack : f.stack with
    | nil =>
      rw [step_write_nil hstack] at h
      cases h
      exact Or.inl rfl
    | cons v rest =>
      rw [step_write hstack] at h
      rcases s.output.write_cases v.text with ⟨hok, -⟩ | ⟨k, hk, -, hfull⟩
      · simp [hok] at h
      · simp only [hfull, Outcome.faulted.injEq] at h
        exact Or.inr ⟨rfl, v, rest, rfl, k, hk, by rw [← h.2]⟩
  · exact Or.inl ((step_shared h).output hwrite)

theorem step_input (hstep : s.step c f callers i = .running t) :
    t.input = s.input.skip ([(f, callers, i)].countP Execution.isRead) := by
  by_cases hread : i = .read
  · subst hread
    rw [step_read] at hstep
    cases hresult : s.input.readLine.1 with
    | error reason => simp [hresult] at hstep
    | ok line =>
      simp only [hresult, Outcome.running.injEq] at hstep
      rw [← hstep]
      rfl
  · have hinput : t.input = s.input := (step_shared hstep).input hread
    rw [hinput]
    simp [Execution.isRead_of_ne hread, Input.skip]

end State

namespace Trail
variable {c : Chunk} {s t : State} {xs : List Execution}

theorem written (h : Trail (State.Does c) xs s t) :
    t.output.written = s.output.written ++ (Execution.text xs).toUTF8.data := by
  induction h with
  | refl s => exact (Array.append_empty).symm
  | @next x xs _ _ _ first _ ih =>
    rw [ih, State.step_written first.2, Execution.text_cons x xs, bytes_append, Array.append_assoc]

theorem input (h : Trail (State.Does c) xs s t) : t.input = s.input.skip (xs.countP Execution.isRead) := by
  induction h with
  | refl s => rfl
  | @next x xs _ _ _ first _ ih =>
    rw [ih, State.step_input first.2]
    cases hread : Execution.isRead x <;> simp [hread, Input.skip]

end Trail
end Bytecode
