import Bytecode.Proofs.Machine.Streams
import Bytecode.Proofs.Safety.Accounting
import Bytecode.Proofs.Text.Places

/-! Reading takes the lines of the input one after the other. The bytes of the input fall into lines (`Input.lines`), and a read
    takes the first of those that are left, whether it is a text or not (`Input.readLine_eq`). Nothing else touches the input,
    so over any number of runs on a machine the reads together take the lines from the first one on (`Machine.Session.input`). -/

namespace Bytecode
namespace Input
open Text

/-! ### Texts and their bytes -/

theorem textOf?_eq_some_iff {bytes : List UInt8} {s : String} : textOf? bytes = some s ↔ bytes = bytesOf s.toList := by
  have hdata : ∀ b : ByteArray, b = ⟨bytes.toArray⟩ ↔ b.data.toList = bytes := by
    rintro ⟨data⟩
    rw [ByteArray.mk.injEq, ← Array.toList_inj, List.toList_toArray]
  rw [← toUTF8_eq, @eq_comm _ bytes, ← hdata, textOf?, String.fromUTF8?]
  constructor
  · intro h
    split at h
    · cases h
      rfl
    · cases h
  · intro h
    have hvalid : ByteArray.IsValidUTF8 ⟨bytes.toArray⟩ := h ▸ s.isValidUTF8
    rw [dif_pos hvalid, Option.some.injEq, ← String.toByteArray_inj]
    exact h.symm

section
variable {a c : Char} {cs : List Char}

/-- Every byte of a character that takes more than one is 128 or more. -/
theorem byte_of_wide (hc : 128 ≤ c.toNat) : ∀ b ∈ String.utf8EncodeChar c, 128 ≤ b.toNat := by
  have hnat : c.toNat = c.val.toNat := rfl
  unfold String.utf8EncodeChar
  dsimp only
  split_ifs
  · omega
  all_goals
    simp only [List.forall_mem_cons, List.not_mem_nil, false_imp_iff, implies_true, and_true, UInt8.toNat_ofNat']
    omega

/-- A byte below 128 comes last where its character comes last. -/
theorem getLast?_bytesOf (ha : a.toNat < 128) (h : (bytesOf cs).getLast? = some a.toUInt8) : cs.getLast? = some a := by
  rcases List.eq_nil_or_concat' cs with rfl | ⟨front, c, rfl⟩
  · cases h
  · rw [bytesOf_append, bytesOf_cons, bytesOf_nil, List.append_nil] at h
    rw [List.getLast?_concat]
    rcases encode_cases c with ⟨hc, hbytes⟩ | ⟨hc, -⟩
    · rw [hbytes, List.getLast?_concat, Option.some.injEq, toUInt8_inj ha hc] at h
      rw [h]
    · have hmem : a.toUInt8 ∈ String.utf8EncodeChar c := by
        have hne : String.utf8EncodeChar c ≠ [] := List.ne_nil_of_length_pos (by simpa using c.utf8Size_pos)
        rw [List.getLast?_append_of_ne_nil _ hne] at h
        exact List.mem_of_getLast? h
      have hwide := byte_of_wide hc _ hmem
      rw [toNat_toUInt8 ha] at hwide
      omega

/-- A byte below 128 at the end of bytes is a character by itself. -/
theorem textOf?_concat (ha : a.toNat < 128) (bytes : List UInt8) :
    textOf? (bytes ++ [a.toUInt8]) = (textOf? bytes).map (·.push a) := by
  have hbyte : bytesOf [a] = [a.toUInt8] := by
    rcases encode_cases a with ⟨-, hbytes⟩ | ⟨hge, -⟩
    · rw [bytesOf_cons, hbytes, bytesOf_nil, List.append_nil]
    · omega
  ext s
  rw [Option.map_eq_some_iff, textOf?_eq_some_iff]
  constructor
  · intro h
    have hlast : s.toList.getLast? = some a := getLast?_bytesOf ha (by rw [← h, List.getLast?_concat])
    obtain ⟨front, hfront⟩ := List.getLast?_eq_some_iff.mp hlast
    refine ⟨String.ofList front, ?_, ?_⟩
    · rw [hfront, bytesOf_append, hbyte] at h
      rw [textOf?_eq_some_iff, String.toList_ofList]
      exact List.append_cancel_right h
    · rw [← String.toList_inj, String.toList_push, String.toList_ofList, hfront]
  · rintro ⟨t, ht, rfl⟩
    rw [textOf?_eq_some_iff] at ht
    rw [String.toList_push, bytesOf_append, hbyte, ht]

end

/-! ### Lines -/

/-- The lines of the input, each with the line feed that ends it. A rest behind the last line feed is a line as well. -/
def lines : List UInt8 → List (List UInt8)
  | [] => []
  | b :: rest =>
    if b = 10 then [b] :: lines rest
    else
      match lines rest with
      | [] => [[b]]
      | line :: others => (b :: line) :: others

/-- A text without the line feed at its end and one carriage return before that. One that does not end in a line feed stays
as it is. -/
def withoutEnd (cs : List Char) : List Char :=
  if cs.getLast? = some '\n' then
    if cs.dropLast.getLast? = some '\r' then cs.dropLast.dropLast else cs.dropLast
  else cs

/-- What a read makes of a line, or of the end of the input. -/
def reading : Option (List UInt8) → Except String String
  | none => .ok ""
  | some line => (textOf? line).elim (.error notText) fun s => .ok (String.ofList (withoutEnd s.toList))

section
variable {bytes text rest : List UInt8}

theorem lines_of_ended (h : 10 ∉ text) : lines (text ++ 10 :: rest) = (text ++ [10]) :: lines rest := by
  induction text with
  | nil => simp [lines]
  | cons b text ih =>
    obtain ⟨hb, htext⟩ := not_or.mp (List.mem_cons.not.mp h)
    rw [List.cons_append, lines, if_neg fun heq => hb heq.symm, ih htext]
    rfl

theorem lines_of_unended (h : 10 ∉ bytes) (hne : bytes ≠ []) : lines bytes = [bytes] := by
  induction bytes with
  | nil => exact absurd rfl hne
  | cons b rest ih =>
    obtain ⟨hb, hrest⟩ := not_or.mp (List.mem_cons.not.mp h)
    rw [lines, if_neg fun heq => hb heq.symm]
    cases rest with
    | nil => rfl
    | cons b' rest => rw [ih hrest (List.cons_ne_nil b' rest)]

/-- The input is empty or starts with a line, and the lines behind it are those of what is left. -/
theorem lines_cases (bytes : List UInt8) :
    bytes = [] ∨ ∃ line rest, bytes = line ++ rest ∧ line ≠ [] ∧ IsLine line rest ∧ lines bytes = line :: lines rest := by
  by_cases hend : 10 ∈ bytes
  · obtain ⟨text, rest, rfl, htext⟩ := List.eq_append_cons_of_mem hend
    refine Or.inr ⟨text ++ [10], rest, ?_, ?_, Or.inl ⟨text, rfl, htext⟩, lines_of_ended htext⟩
    · rw [List.append_assoc, List.singleton_append]
    · exact List.append_ne_nil_of_right_ne_nil _ (List.cons_ne_nil 10 [])
  · by_cases hne : bytes = []
    · exact Or.inl hne
    · exact Or.inr ⟨bytes, [], (List.append_nil _).symm, hne, Or.inr ⟨hend, rfl⟩, lines_of_unended hend hne⟩

theorem flatten_lines (bytes : List UInt8) : (lines bytes).flatten = bytes := by
  induction bytes with
  | nil => rfl
  | cons b rest ih =>
    rw [lines]
    split
    · rw [List.flatten_cons, ih, List.singleton_append]
    · split
      · rename_i hnone
        rw [hnone] at ih
        rw [← ih]
        rfl
      · rename_i line others hlines
        rw [hlines] at ih
        rw [← ih]
        rfl

/-- What is behind some lines has the other lines. -/
theorem lines_drop (bytes : List UInt8) (n : Nat) : lines ((lines bytes).drop n).flatten = (lines bytes).drop n := by
  induction n generalizing bytes with
  | zero => rw [List.drop_zero, flatten_lines]
  | succ n ih =>
    rcases lines_cases bytes with rfl | ⟨line, rest, -, -, -, hlines⟩
    · rfl
    · rw [hlines, List.drop_succ_cons]
      exact ih rest

/-- Each line goes up to the first line feed and includes it; a last one may have none. -/
theorem isLine_of_lines {before behind : List (List UInt8)} {line : List UInt8}
    (h : lines bytes = before ++ line :: behind) : line ≠ [] ∧ IsLine line behind.flatten := by
  have hrest := lines_drop bytes before.length
  rw [h, List.drop_left] at hrest
  rcases lines_cases (line :: behind).flatten with hnil | ⟨line', rest', -, hne, hline, hlines⟩
  · rw [hnil] at hrest
    cases hrest
  · rw [hrest] at hlines
    obtain ⟨rfl, rfl⟩ := List.cons.inj hlines
    rw [flatten_lines]
    exact ⟨hne, hline⟩

/-! ### What a read takes -/

theorem splitLine_of_ended (h : 10 ∉ text) : splitLine (text ++ 10 :: rest) = (text, true, rest) := by
  have hall : ∀ b ∈ text, (b != 10) = true := by
    intro b hb
    rw [bne_iff_ne]
    rintro rfl
    exact h hb
  rw [splitLine, List.dropWhile_append_of_pos hall, List.takeWhile_append_of_pos hall]
  simp

theorem splitLine_of_unended (h : 10 ∉ bytes) : splitLine bytes = (bytes, false, []) := by
  have hnone : bytes.dropWhile (· != 10) = [] := by
    rw [List.dropWhile_eq_nil_iff]
    intro b hb
    rw [bne_iff_ne]
    rintro rfl
    exact h hb
  rw [splitLine, hnone]

/-- Whether bytes are a text does not depend on the end of their line, which can be dropped from the bytes or the text. -/
theorem textOf?_dropReturn (text : List UInt8) :
    textOf? (dropReturn text) = (textOf? (text ++ [10])).map fun s => String.ofList (withoutEnd s.toList) := by
  have hfeed : textOf? (text ++ [10]) = (textOf? text).map (·.push '\n') := textOf?_concat (a := '\n') (by decide) text
  rw [hfeed, Option.map_map, dropReturn]
  split
  · rename_i hlast
    obtain ⟨front, rfl⟩ := List.getLast?_eq_some_iff.mp hlast
    have hreturn : textOf? (front ++ [13]) = (textOf? front).map (·.push '\r') := textOf?_concat (a := '\r') (by decide) front
    rw [hreturn, Option.map_map, List.dropLast_concat]
    refine (Option.map_id_apply.symm).trans (congrArg (Option.map · _) (funext fun s => ?_))
    simp [withoutEnd]
  · rename_i hlast
    cases htext : textOf? text with
    | none => rfl
    | some s =>
      have hreturn : s.toList.getLast? ≠ some '\r' := by
        intro hs
        obtain ⟨front, hfront⟩ := List.getLast?_eq_some_iff.mp hs
        apply hlast
        rw [textOf?_eq_some_iff.mp htext, hfront, bytesOf_append]
        exact List.getLast?_concat
      simp [withoutEnd, hreturn]

/-- A read takes the first line that is left. -/
theorem readLine_eq (i : Input) : i.readLine = (reading (lines i.rest).head?, ⟨(lines i.rest).tail.flatten⟩) := by
  obtain ⟨bytes⟩ := i
  by_cases hend : 10 ∈ bytes
  · obtain ⟨text, rest, rfl, htext⟩ := List.eq_append_cons_of_mem hend
    simp only [readLine, splitLine_of_ended htext, if_true, lines_of_ended htext, List.head?_cons, List.tail_cons,
      flatten_lines, reading, textOf?_dropReturn]
    cases textOf? (text ++ [10]) <;> rfl
  · by_cases hne : bytes = []
    · subst hne
      rfl
    · have hkeep : ∀ s, textOf? bytes = some s → withoutEnd s.toList = s.toList := by
        intro s hs
        refine if_neg fun hlast => hend ?_
        obtain ⟨front, hfront⟩ := List.getLast?_eq_some_iff.mp hlast
        rw [textOf?_eq_some_iff.mp hs, hfront, bytesOf_append]
        exact List.mem_append_right _ (List.mem_singleton_self _)
      simp only [readLine, splitLine_of_unended hend, lines_of_unended hend hne, List.head?_cons, List.tail_cons, reading]
      cases hs : textOf? bytes with
      | none => simp [hs]
      | some s => simp [hs, hkeep s hs]

theorem skip_eq (n : Nat) (i : Input) : i.skip n = ⟨((lines i.rest).drop n).flatten⟩ := by
  induction n generalizing i with
  | zero =>
    rw [List.drop_zero, flatten_lines]
    rfl
  | succ n ih =>
    rw [skip, ih, readLine_eq]
    rcases lines_cases i.rest with hnil | ⟨line, rest, -, -, -, hlines⟩
    · simp [hnil, lines]
    · simp only [hlines, List.tail_cons, List.drop_succ_cons, flatten_lines]

theorem skip_add (m n : Nat) (i : Input) : i.skip (m + n) = (i.skip m).skip n := by
  induction m generalizing i with
  | zero => rw [Nat.zero_add, skip]
  | succ m ih => rw [Nat.succ_add, skip, ih, skip]

end
end Input

/-! ### Runs -/

namespace State
variable {c : Chunk} {s t : State} {f : Frame} {callers : List Frame} {i : Instr}

/-- A read that fails has taken a line as well. -/
theorem step_faulted_input {fault : Fault} (hstep : s.step c f callers i = .faulted fault t) :
    t.input = s.input.skip ([(f, callers, i)].countP Execution.isRead) := by
  by_cases hread : i = .read
  · subst hread
    rw [step_read] at hstep
    cases hresult : s.input.readLine.1 with
    | ok line => simp [hresult] at hstep
    | error reason =>
      simp only [hresult, Outcome.faulted.injEq] at hstep
      rw [← hstep.2]
      rfl
  · have hinput : t.input = s.input := (step_shared hstep).input hread
    rw [hinput]
    simp [Execution.isRead_of_ne hread, Input.skip]

theorem course?_input {bound : Nat} {r : Course} (h : course? c bound s = some r) :
    r.state.input = s.input.skip (r.executed.countP Execution.isRead) := by
  obtain ⟨done, t, -, hdone, ⟨-, rfl⟩ | ⟨f, callers, i, fault, u, -, hstep, rfl⟩⟩ := course?_eq_some h
  · exact hdone.input
  · rw [List.countP_append, Input.skip_add, ← hdone.input]
    exact step_faulted_input hstep

end State

namespace Machine

theorem run?_input {m m' : Machine} {c : Chunk} {bound : Nat} {result : Except Failure Unit}
    (h : m.run? c bound = some (result, m')) :
    m'.input = m.input.skip ((m.executed c bound).countP Execution.isRead) := by
  cases hmain : entryPoint? c with
  | none =>
    simp only [run?, hmain, Option.some.injEq, Prod.mk.injEq] at h
    rw [← h.2, executed, course?, hmain]
    rfl
  | some main =>
    rw [run?_eq_course? hmain, Option.map_eq_some_iff] at h
    obtain ⟨r, hr, hfinish⟩ := h
    have hinput := (m.finish_state (r.ending m.settings m.diagnostics)).1
    rw [hfinish] at hinput
    rw [executed_of_course? hr]
    exact hinput.trans (State.course?_input ((course?_eq m hmain bound).symm.trans hr))

/-- A machine is used for any number of runs, which end normally or with a failure, and the settings may be changed between
them. The instructions that all of them execute, the failing ones included, are listed in their order. -/
inductive Session (m : Machine) : List Execution → Machine → Prop where
  | start : Session m [] m
  | configured {xs : List Execution} {m' : Machine} (h : Session m xs m') (settings : Settings) :
      Session m xs { m' with settings := settings }
  | ran {xs : List Execution} {m' m'' : Machine} {c : Chunk} {bound : Nat} {result : Except Failure Unit}
      (h : Session m xs m') (run : m'.run? c bound = some (result, m'')) :
      Session m (xs ++ m'.executed c bound) m''

theorem Session.input {m m' : Machine} {xs : List Execution} (h : m.Session xs m') :
    m'.input = m.input.skip (xs.countP Execution.isRead) := by
  induction h with
  | start => rfl
  | configured _ settings ih => exact ih
  | ran _ hrun ih => rw [run?_input hrun, ih, List.countP_append, Input.skip_add]

end Machine

namespace Safety
open Machine Input

/-- Reading partitions the input into lines. Let a machine be used for any number of runs, with the instructions `xs`, and then
for another one, which has executed the instructions `done` and comes to a read. If the reads among all of these are `k`, they
have taken the first `k` lines of the input, and this one takes the next line: it pushes its text without the end of the line,
or fails if the line is not a text, and at the end of the input it pushes the empty text. Lines end with a line feed, but for a
last one that has none, and nothing of the input is left out. -/
theorem reads_take_lines_in_order {m m' : Machine} {xs : List Execution} (h : m.Session xs m') :
    (lines m.input.rest).flatten = m.input.rest ∧
      (∀ before line behind, lines m.input.rest = before ++ line :: behind → line ≠ [] ∧ IsLine line behind.flatten) ∧
      m.input.rest = ((lines m.input.rest).take (xs.countP Execution.isRead)).flatten ++ m'.input.rest ∧
      ∀ c done s f callers k, m'.Executes c done s → s.next? = some (f, callers, .read) →
        k = (xs ++ done).countP Execution.isRead →
        m.input.rest = ((lines m.input.rest).take k).flatten ++ s.input.rest ∧
        (∀ text, reading (lines m.input.rest)[k]? = .ok text → s.step c f callers .read = .running
          { s with
            frames := { f with pc := f.pc + 1, stack := .str text :: f.stack } :: callers
            input := ⟨((lines m.input.rest).drop (k + 1)).flatten⟩ }) ∧
        ∀ reason, reading (lines m.input.rest)[k]? = .error reason → (Fault.readFailed reason).kind = .io ∧
          s.step c f callers .read = .faulted (.readFailed reason)
            { s with input := ⟨((lines m.input.rest).drop (k + 1)).flatten⟩ } := by
  have hparts : ∀ n, m.input.rest = ((lines m.input.rest).take n).flatten ++ (m.input.skip n).rest := by
    intro n
    rw [skip_eq, ← List.flatten_append, List.take_append_drop, flatten_lines]
  refine ⟨flatten_lines _, fun _ _ _ => isLine_of_lines, ?_, ?_⟩
  · rw [h.input]
    exact hparts _
  · rintro c done s f callers _ ⟨main, -, htrail⟩ - rfl
    -- Each read so far has skipped one line, those of the earlier runs included.
    have hinput : s.input = m.input.skip ((xs ++ done).countP Execution.isRead) := by
      have hstart : (m'.start main).input = m'.input := rfl
      rw [htrail.input, hstart, h.input, ← skip_add, List.countP_append]
    generalize (xs ++ done).countP Execution.isRead = k at hinput
    have hread : s.input.readLine =
        (reading (lines m.input.rest)[k]?, ⟨((lines m.input.rest).drop (k + 1)).flatten⟩) := by
      rw [readLine_eq, hinput, skip_eq, lines_drop, List.head?_drop, List.tail_drop]
    refine ⟨hinput ▸ hparts k, fun text htext => ?_, fun reason hreason => ⟨rfl, ?_⟩⟩
    · rw [State.step_read, hread, htext]
    · rw [State.step_read, hread, hreason]

/-- A chunk that reads two lines. -/
def listening : Chunk where
  functions := [⟨"main", 0, #[.read, .read, .ret]⟩]

/-- A machine with three lines in its input. The second one is not a text, and the third one is a carriage return without a
line feed. -/
def patchyMachine : Machine where
  input := ⟨[97, 13, 10, 255, 10, 13]⟩

/-- The first run fails at the second line, and the next one goes on with the third line, which is pushed as it is. -/
theorem listening_takes_lines :
    ∃ site m' s f, patchyMachine.run? listening 9 = some (.error ⟨.readFailed notText, some site⟩, m') ∧
      m'.Executes listening [] s ∧ s.next? = some (f, [], .read) ∧
      s.step listening f [] .read =
        .running { s with frames := [{ f with pc := 1, stack := [.str "\r"] }], input := ⟨[]⟩ } := by
  obtain ⟨site, m', hrun⟩ : ∃ site m', patchyMachine.run? listening 9 =
      some (.error ⟨.readFailed notText, some site⟩, m') := ⟨_, _, rfl⟩
  have hsession : patchyMachine.Session ([] ++ patchyMachine.executed listening 9) m' := Session.start.ran hrun
  obtain ⟨-, -, -, hreads⟩ := reads_take_lines_in_order hsession
  have hexecutes : m'.Executes listening [] (m'.start ⟨"main", 0, #[.read, .read, .ret]⟩) :=
    ⟨_, rfl, .refl _⟩
  obtain ⟨-, htext, -⟩ := hreads listening [] _ _ [] 2 hexecutes rfl rfl
  exact ⟨site, m', _, _, hrun, hexecutes, rfl, htext "\r" rfl⟩

end Safety
end Bytecode
