import Bytecode.Proofs.Safety.Traces
import Mathlib.Data.List.Nodup
import Mathlib.Data.String.Basic

/-! Diagnostics account for every executed instruction. Under a trace each of them adds one line (`run?_text`), under a profile
    one to the count of its mnemonic (`run?_countOf`), so that the ranking of a machine lists the totals over all its profiled
    runs (`History.counts`, `mem_ranking_iff`). -/

namespace Bytecode

/-! ### Tables with one entry for each name -/

namespace Table
variable {α : Type} {name : String} {v : α} {entries : List (String × α)}

/-- No name has two entries. -/
def Distinct (t : Table α) : Prop :=
  (t.entries.map Prod.fst).Nodup

theorem names_putEntry (name : String) (v : α) (entries : List (String × α)) :
    (putEntry name v entries).map Prod.fst =
      if name ∈ entries.map Prod.fst then entries.map Prod.fst else entries.map Prod.fst ++ [name] := by
  induction entries with
  | nil => rfl
  | cons e rest ih =>
    obtain ⟨other, old⟩ := e
    by_cases hname : other = name
    · simp [putEntry, hname]
    · have hname' : name ≠ other := Ne.symm hname
      by_cases hmem : name ∈ rest.map Prod.fst <;> simp_all [putEntry]

theorem Distinct.put {t : Table α} (h : t.Distinct) (name : String) (v : α) : (t.put name v).Distinct := by
  unfold Distinct Table.put
  rw [names_putEntry]
  by_cases hmem : name ∈ t.entries.map Prod.fst
  · rw [if_pos hmem]
    exact h
  · rw [if_neg hmem, List.nodup_append_comm, List.singleton_append, List.nodup_cons]
    exact ⟨hmem, h⟩

/-- Where no name is there twice, an entry is what is found under its name. -/
theorem mem_entries_iff_of_nodup (h : (entries.map Prod.fst).Nodup) :
    (name, v) ∈ entries ↔ getEntry? name entries = some v := by
  induction entries with
  | nil => simp [ getEntry?]
  | cons e rest ih =>
    obtain ⟨other, old⟩ := e
    rw [List.map_cons, List.nodup_cons] at h
    by_cases hname : other = name
    · subst hname
      have hnot : (other, v) ∉ rest := fun hmem => h.1 (List.mem_map.mpr ⟨(other, v), hmem, rfl⟩)
      simp [hnot, eq_comm, getEntry?]
    · have hne : name ≠ other := Ne.symm hname
      simp [hname, hne, ih h.2, getEntry?]

theorem Distinct.mem_entries_iff {t : Table α} (h : t.Distinct) : (name, v) ∈ t.entries ↔ t.get? name = some v :=
  mem_entries_iff_of_nodup h

end Table

/-! ### Traces -/

/-- Lines, each ended by a line feed. -/
def ended (lines : List String) : String :=
  String.join (lines.map (· ++ "\n"))

theorem ended_append (lines later : List String) : ended (lines ++ later) = ended lines ++ ended later := by
  simp [ended, String.join_append]

/-- The mnemonic of the instruction that a note is about: its text up to the parenthesis. -/
def Note.mnemonic? : Note → Option String
  | .instruction site _ _ => some (String.ofList (site.instruction.toList.takeWhile (· != '(')))
  | _ => none

theorem Instr.no_parenthesis (i : Instr) : i.mnemonic.toList.all (· != '(') = true := by
  cases i with
  | op o =>
    cases o with
    | arith a => cases a <;> rfl
    | order o => cases o <;> rfl
    | _ => simp [mnemonic, Operation.mnemonic]
  | _ => simp [mnemonic]

/-- The mnemonic can be read off the line of an instruction. -/
theorem Execution.mnemonic?_note (x : Execution) : x.note.mnemonic? = some x.2.2.mnemonic := by
  obtain ⟨f, callers, i⟩ := x
  have htext : i.text.toList = i.mnemonic.toList ++ '(' :: (i.operandText.toList ++ [')']) := by
    simp [Instr.text]
  show some (String.ofList (i.text.toList.takeWhile (· != '('))) = some i.mnemonic
  rw [htext, List.takeWhile_append_of_pos (List.all_eq_true.mp i.no_parenthesis)]
  simp

namespace Diagnostics

/-- How often a mnemonic has been counted. -/
def countOf (d : Diagnostics) (mnemonic : String) : Nat :=
  (d.counts.get? mnemonic).getD 0

/-- The diagnostics after instructions have been observed under settings. -/
def observed (settings : Settings) (d : Diagnostics) (xs : List Execution) : Diagnostics :=
  xs.foldl (fun d x => d.observe settings x.1 x.2.1 x.2.2) d

variable {d : Diagnostics} {settings : Settings}

theorem text_eq_ended (d : Diagnostics) : d.text = ended (d.notes.toList.map Note.text) := by
  simp [text, ended, Function.comp_def]

/-- One line is noted for each instruction, and only under a trace. -/
theorem observe_notes (d : Diagnostics) (settings : Settings) (x : Execution) :
    (d.observe settings x.1 x.2.1 x.2.2).notes.toList = d.notes.toList ++ if settings.trace then [x.note] else [] := by
  obtain ⟨trace, profile⟩ := settings
  cases trace <;> cases profile <;> simp [observe, note, count, Execution.note]

/-- Under a trace, and only then, every observed instruction is noted down. -/
theorem observed_notes (d : Diagnostics) (settings : Settings) (xs : List Execution) :
    (d.observed settings xs).notes.toList = d.notes.toList ++ if settings.trace then xs.map Execution.note else [] := by
  induction xs generalizing d with
  | nil => simp [observed]
  | cons x xs ih =>
    refine (ih (d.observe settings x.1 x.2.1 x.2.2)).trans ?_
    rw [observe_notes]
    cases settings.trace <;> simp

/-! ### Profiles -/

/-- How many of the instructions have a mnemonic. -/
def tally (xs : List Execution) (mnemonic : String) : Nat :=
  xs.countP fun x => x.2.2.mnemonic == mnemonic

theorem tally_append (xs ys : List Execution) (mnemonic : String) :
    tally (xs ++ ys) mnemonic = tally xs mnemonic + tally ys mnemonic :=
  List.countP_append

theorem tally_cons (x : Execution) (xs : List Execution) (mnemonic : String) :
    tally (x :: xs) mnemonic = (if x.2.2.mnemonic = mnemonic then 1 else 0) + tally xs mnemonic := by
  by_cases h : x.2.2.mnemonic = mnemonic <;> simp [tally, h, Nat.add_comm]

/-- Only the count of the executed instruction goes up. -/
theorem countOf_count (d : Diagnostics) (executed mnemonic : String) :
    (d.count executed).countOf mnemonic = d.countOf mnemonic + if executed = mnemonic then 1 else 0 := by
  by_cases h : mnemonic = executed
  · simp [countOf, count, h]
  · have h' : executed ≠ mnemonic := Ne.symm h
    simp [countOf, count, Table.get?_put_of_ne h, h']

theorem observe_counts (d : Diagnostics) (settings : Settings) (f : Frame) (callers : List Frame) (i : Instr) :
    (d.observe settings f callers i).counts =
      if settings.profileOpcodes then (d.count i.mnemonic).counts else d.counts := by
  obtain ⟨trace, profile⟩ := settings
  cases trace <;> cases profile <;> rfl

/-- Without a profile the counts stay as they are. -/
theorem observed_counts (hoff : settings.profileOpcodes = false) (d : Diagnostics) (xs : List Execution) :
    (d.observed settings xs).counts = d.counts := by
  induction xs generalizing d with
  | nil => rfl
  | cons x xs ih =>
    refine (ih (d.observe settings x.1 x.2.1 x.2.2)).trans ?_
    rw [observe_counts, hoff]
    rfl

/-- Under a profile every mnemonic is counted as often as it is executed. -/
theorem observed_countOf (hon : settings.profileOpcodes = true) (d : Diagnostics) (xs : List Execution) (mnemonic : String) :
    (d.observed settings xs).countOf mnemonic = d.countOf mnemonic + tally xs mnemonic := by
  induction xs generalizing d with
  | nil => rfl
  | cons x xs ih =>
    have hcounts := observe_counts d settings x.1 x.2.1 x.2.2
    rw [hon, if_pos rfl] at hcounts
    have hone : (d.observe settings x.1 x.2.1 x.2.2).countOf mnemonic = (d.count x.2.2.mnemonic).countOf mnemonic := by
      rw [countOf, hcounts, countOf]
    refine (ih (d.observe settings x.1 x.2.1 x.2.2)).trans ?_
    rw [hone, countOf_count, tally_cons, Nat.add_assoc]

/-- No mnemonic has two counts, and none has a count without having been counted. -/
structure Orderly (d : Diagnostics) : Prop where
  distinct : d.counts.Distinct
  positive : ∀ mnemonic n, d.counts.get? mnemonic = some n → 0 < n

theorem Orderly.congr (h : d.Orderly) {d' : Diagnostics} (hcounts : d'.counts = d.counts) : d'.Orderly where
  distinct := hcounts ▸ h.distinct
  positive := hcounts ▸ h.positive

theorem Orderly.count (h : d.Orderly) (executed : String) : (d.count executed).Orderly where
  distinct := h.distinct.put _ _
  positive mnemonic n hn := by
    simp only [Diagnostics.count, Table.get?_put] at hn
    split at hn
    · cases hn
      exact Nat.succ_pos _
    · exact h.positive mnemonic n hn

theorem Orderly.observe (h : d.Orderly) (settings : Settings) (f : Frame) (callers : List Frame) (i : Instr) :
    (d.observe settings f callers i).Orderly := by
  have hcounts := observe_counts d settings f callers i
  by_cases hon : settings.profileOpcodes = true
  · rw [if_pos hon] at hcounts
    exact (h.count i.mnemonic).congr hcounts
  · rw [if_neg hon] at hcounts
    exact h.congr hcounts

theorem Orderly.observed (h : d.Orderly) (settings : Settings) (xs : List Execution) : (d.observed settings xs).Orderly := by
  induction xs generalizing d with
  | nil => exact h
  | cons x xs ih => exact ih (h.observe settings x.1 x.2.1 x.2.2)

/-! ### Rankings -/

/-- Larger counts come before smaller ones, and equal ones in the order of their mnemonics. -/
def Before (a b : String × Nat) : Prop :=
  b.2 < a.2 ∨ a.2 = b.2 ∧ a.1 < b.1

instance : DecidableRel Before :=
  fun a b => inferInstanceAs (Decidable (b.2 < a.2 ∨ a.2 = b.2 ∧ a.1 < b.1))

/-- The ranking has every instruction that was counted, with its count. -/
theorem mem_ranking_iff (h : d.Orderly) {mnemonic : String} {n : Nat} :
    (mnemonic, n) ∈ d.ranking ↔ n = d.countOf mnemonic ∧ 0 < n := by
  have hperm : d.ranking.Perm d.counts.entries := List.mergeSort_perm _ _
  rw [hperm.mem_iff, h.distinct.mem_entries_iff, countOf]
  constructor
  · intro hget
    exact ⟨by rw [hget]; rfl, h.positive mnemonic n hget⟩
  · rintro ⟨rfl, hpos⟩
    cases hget : d.counts.get? mnemonic with
    | none => simp [hget] at hpos
    | some n => rfl

theorem nodup_ranking (h : d.Orderly) : (d.ranking.map Prod.fst).Nodup := by
  have hperm : d.ranking.Perm d.counts.entries := List.mergeSort_perm _ _
  exact (hperm.map Prod.fst).nodup_iff.mpr h.distinct

/-- The order that a ranking is sorted by. -/
def Leads (a b : String × Nat) : Prop :=
  b.2 < a.2 ∨ a.2 = b.2 ∧ a.1 ≤ b.1

theorem Leads.trans {a b c : String × Nat} (hab : Leads a b) (hbc : Leads b c) : Leads a c := by
  rcases hab with hab | ⟨hab, hle⟩ <;> rcases hbc with hbc | ⟨hbc, hle'⟩
  · exact Or.inl (hbc.trans hab)
  · exact Or.inl (hbc ▸ hab)
  · exact Or.inl (hab ▸ hbc)
  · exact Or.inr ⟨hab.trans hbc, String.le_trans hle hle'⟩

theorem leads_total (a b : String × Nat) : Leads a b ∨ Leads b a := by
  rcases Nat.lt_trichotomy a.2 b.2 with hlt | heq | hlt
  · exact Or.inr (Or.inl hlt)
  · rcases String.le_total a.1 b.1 with hle | hle
    · exact Or.inl (Or.inr ⟨heq, hle⟩)
    · exact Or.inr (Or.inr ⟨heq.symm, hle⟩)
  · exact Or.inl (Or.inl hlt)

/-- The ranking is in order. -/
theorem pairwise_leads (d : Diagnostics) : d.ranking.Pairwise Leads := by
  have hiff : ∀ a b : String × Nat, (decide (b.2 < a.2) || (a.2 == b.2 && decide (a.1 ≤ b.1))) = true ↔ Leads a b := by
    simp [Leads]
  have hsorted : d.ranking.Pairwise fun a b => (decide (b.2 < a.2) || (a.2 == b.2 && decide (a.1 ≤ b.1))) = true := by
    refine List.pairwise_mergeSort (fun a b c hab hbc => ?_) (fun a b => ?_) d.counts.entries
    · exact (hiff a c).mpr (((hiff a b).mp hab).trans ((hiff b c).mp hbc))
    · rw [Bool.or_eq_true, hiff, hiff]
      exact leads_total a b
  exact hsorted.imp (hiff _ _).mp

/-- The ranking is in strict order, since no mnemonic comes twice. -/
theorem pairwise_ranking (h : d.Orderly) : d.ranking.Pairwise Before := by
  have hnames : d.ranking.Pairwise fun a b => a.1 ≠ b.1 := List.pairwise_map.mp (nodup_ranking h)
  refine (d.pairwise_leads.and hnames).imp ?_
  rintro a b ⟨hlt | ⟨heq, hle⟩, hne⟩
  · exact Or.inl hlt
  · exact Or.inr ⟨heq, lt_of_le_of_ne hle hne⟩

theorem Before.asymm {a b : String × Nat} (hab : Before a b) : ¬Before b a := by
  rintro (hba | ⟨heq, hba⟩) <;> rcases hab with hab | ⟨heq', hab⟩
  · omega
  · omega
  · omega
  · exact absurd hba (not_lt_of_gt hab)

/-- There is only one strict order of the counts. -/
theorem ranking_eq (h : d.ranking.Pairwise Before) {entries : List (String × Nat)} (hperm : d.counts.entries.Perm entries)
    (hentries : entries.Pairwise Before) : d.ranking = entries := by
  have hsame : d.ranking.Perm entries := (List.mergeSort_perm _ _).trans hperm
  exact hsame.eq_of_pairwise (fun a b _ _ hab hba => absurd hba hab.asymm) h hentries

theorem report_counts (d : Diagnostics) (settings : Settings) : (d.report settings).counts = d.counts := by
  unfold report
  split <;> rfl

/-- A report has one line for each ranked instruction, if counts were asked for. -/
theorem report_notes (d : Diagnostics) (settings : Settings) :
    (d.report settings).notes.toList =
      d.notes.toList ++ if settings.profileOpcodes then d.ranking.map fun e => Note.count e.1 e.2 else [] := by
  unfold report
  split <;> simp

end Diagnostics

/-! ### Runs -/

namespace State
variable {c : Chunk} {s t u : State} {n : Nat}

/-- The instructions that a course has executed are those that come next after each number of instructions. -/
theorem course?_executed {bound : Nat} {r : Course} (h : course? c bound s = some r) (k : Nat) (x : Execution) :
    r.executed[k]? = some x ↔ ∃ t, Steps c k s t ∧ t.next? = some x := by
  induction bound generalizing s r k with
  | zero => cases h
  | succ bound ih =>
    cases hn : s.next? with
    | none =>
      rw [course?_of_end hn] at h
      cases h
      have hno : ∀ t, ¬s.Next c t := by
        rintro t ⟨f, callers, i, hnext, -⟩
        rw [hn] at hnext
        cases hnext
      cases k with
      | zero => simp [Steps.zero_iff, hn]
      | succ k => simp [Steps.succ_iff, hno]
    | some next =>
      obtain ⟨f, callers, i⟩ := next
      cases hs : s.step c f callers i with
      | running t =>
        rw [course?_of_running hn hs, Option.map_eq_some_iff] at h
        obtain ⟨r, hr, rfl⟩ := h
        -- A step has one result, so the run goes on from there alone.
        have honly : ∀ u, s.Next c u ↔ u = t := by
          intro u
          rw [next_iff hn, hs, Outcome.running.injEq, eq_comm]
        cases k with
        | zero => simp [Steps.zero_iff, hn, Course.behind]
        | succ k => simp [Steps.succ_iff, honly, Course.behind, ih hr]
      | faulted fault t =>
        rw [course?_of_faulted hn hs] at h
        cases h
        have hno : ∀ u, ¬s.Next c u := by
          intro u hnext
          rw [next_iff hn, hs] at hnext
          cases hnext
        cases k with
        | zero => simp [Steps.zero_iff, hn]
        | succ k => simp [Steps.succ_iff, hno]

end State

namespace Machine
variable {m m' : Machine} {c : Chunk} {bound : Nat} {result : Except Failure Unit}

/-- The instructions that a run of a chunk executes. -/
def executed (m : Machine) (c : Chunk) (bound : Nat) : List Execution :=
  ((m.course? c bound).map Course.executed).getD []

/-- A machine from its making on, with the instructions that it has executed while they were counted. Between its runs
everything but its counts may change: the settings, the streams, the heap and the notes. -/
inductive History : List Execution → Machine → Prop where
  | made {m : Machine} (new : m.diagnostics.counts = {}) : History [] m
  | changed {xs : List Execution} {m m' : Machine} (h : History xs m)
      (same : m'.diagnostics.counts = m.diagnostics.counts) : History xs m'
  | ran {xs : List Execution} {m m' : Machine} {c : Chunk} {bound : Nat} {result : Except Failure Unit}
      (h : History xs m) (run : m.run? c bound = some (result, m')) :
      History (xs ++ if m.settings.profileOpcodes then m.executed c bound else []) m'

theorem executed_of_course? {r : Course} (h : m.course? c bound = some r) : m.executed c bound = r.executed := by
  rw [executed, h]
  rfl

/-- The executed instructions of a run that ends are those that come next after each number of instructions. -/
theorem executed_getElem? (h : m.run? c bound = some (result, m')) (k : Nat) (x : Execution) :
    (m.executed c bound)[k]? = some x ↔ ∃ s, m.After c k s ∧ s.next? = some x := by
  cases hmain : entryPoint? c with
  | none => simp [executed, course?, after_iff, hmain]
  | some main =>
    rw [run?_eq_course? hmain, Option.map_eq_some_iff] at h
    obtain ⟨r, hr, -⟩ := h
    rw [executed_of_course? hr, State.course?_executed ((course?_eq m hmain bound).symm.trans hr)]
    simp [after_iff, hmain]

/-- What a run adds to the diagnostics: the instructions that it has executed, and a report if it has succeeded. -/
theorem run?_diagnostics (h : m.run? c bound = some (result, m')) :
    m'.diagnostics =
      if result.isOk then (m.diagnostics.observed m.settings (m.executed c bound)).report m.settings
      else m.diagnostics.observed m.settings (m.executed c bound) := by
  cases hmain : entryPoint? c with
  | none =>
    simp only [run?, hmain, Option.some.injEq, Prod.mk.injEq] at h
    obtain ⟨rfl, rfl⟩ := h
    simp [executed, course?, hmain, Diagnostics.observed, Except.isOk, Except.toBool]
  | some main =>
    rw [run?_eq_course? hmain, Option.map_eq_some_iff] at h
    obtain ⟨r, hr, hfinish⟩ := h
    rw [executed_of_course? hr]
    unfold finish at hfinish
    simp only [Course.ending_result, Course.ending_state] at hfinish
    cases hresult : r.result with
    | error failure =>
      simp only [hresult, Prod.mk.injEq] at hfinish
      obtain ⟨rfl, rfl⟩ := hfinish
      rfl
    | ok u =>
      simp only [hresult] at hfinish
      -- The counts are reported after the flush, and not if it fails.
      cases hflush : r.state.output.flush with
      | error reason =>
        simp only [hflush, Prod.mk.injEq] at hfinish
        obtain ⟨rfl, rfl⟩ := hfinish
        rfl
      | ok u =>
        simp only [hflush, Prod.mk.injEq] at hfinish
        obtain ⟨rfl, rfl⟩ := hfinish
        rfl

theorem run?_counts (h : m.run? c bound = some (result, m')) :
    m'.diagnostics.counts = (m.diagnostics.observed m.settings (m.executed c bound)).counts := by
  rw [run?_diagnostics h]
  split
  · exact Diagnostics.report_counts _ _
  · rfl

/-- What a run notes down: under a trace the instructions, and under a profile the counts at the end if it succeeds. -/
theorem run?_notes (h : m.run? c bound = some (result, m')) :
    m'.diagnostics.notes.toList =
      m.diagnostics.notes.toList ++ (if m.settings.trace then (m.executed c bound).map Execution.note else []) ++
        if m.settings.profileOpcodes && result.isOk then m'.diagnostics.ranking.map fun e => Note.count e.1 e.2 else [] := by
  have hranking : m'.diagnostics.ranking = (m.diagnostics.observed m.settings (m.executed c bound)).ranking := by
    rw [Diagnostics.ranking, run?_counts h, Diagnostics.ranking]
  rw [hranking, run?_diagnostics h, ← Diagnostics.observed_notes]
  cases result.isOk with
  | false => simp
  | true =>
    rw [if_pos rfl, Diagnostics.report_notes]
    simp

/-- A run adds what it has executed to the counts. -/
theorem run?_countOf (h : m.run? c bound = some (result, m')) (mnemonic : String) :
    m'.diagnostics.countOf mnemonic = m.diagnostics.countOf mnemonic +
      if m.settings.profileOpcodes then Diagnostics.tally (m.executed c bound) mnemonic else 0 := by
  rw [Diagnostics.countOf, run?_counts h]
  by_cases hon : m.settings.profileOpcodes = true
  · rw [if_pos hon]
    exact Diagnostics.observed_countOf hon _ _ mnemonic
  · rw [if_neg hon, Diagnostics.observed_counts (by simpa using hon)]
    rfl

/-- The lines of a run: under a trace one for each instruction, and under a profile the ranking if it succeeds. -/
theorem run?_text (h : m.run? c bound = some (result, m')) :
    m'.diagnostics.text = m.diagnostics.text ++
      ended ((if m.settings.trace then (m.executed c bound).map (Note.text ∘ Execution.note) else []) ++
        if m.settings.profileOpcodes && result.isOk then
          m'.diagnostics.ranking.map (Note.text ∘ fun e => .count e.1 e.2) else []) := by
  rw [Diagnostics.text_eq_ended, Diagnostics.text_eq_ended, run?_notes h, List.append_assoc, List.map_append, ended_append]
  simp only [List.map_append, apply_ite (List.map Note.text), List.map_map, List.map_nil]

/-- Each of these lines shows what it stands for. -/
theorem run?_lines (h : m.run? c bound = some (result, m')) :
    ∃ lines profile, m'.diagnostics.text = m.diagnostics.text ++ ended (lines ++ profile) ∧
      (if m.settings.trace then List.Forall₂ Execution.Traced (m.executed c bound) lines else lines = []) ∧
      if m.settings.profileOpcodes && result.isOk then List.Forall₂ Profiled m'.diagnostics.ranking profile
      else profile = [] := by
  refine ⟨_, _, run?_text h, ?_, ?_⟩
  · split
    · rw [List.forall₂_map_right_iff, List.forall₂_same]
      exact fun x _ => x.traced_note
    · rfl
  · split
    · rw [List.forall₂_map_right_iff, List.forall₂_same]
      exact fun e _ => profiled_count e
    · rfl

/-- Under a trace the new notes on the instructions with a mnemonic are as many as these instructions. -/
theorem run?_traced (h : m.run? c bound = some (result, m')) (hon : m.settings.trace = true) (mnemonic : String) :
    (m'.diagnostics.notes.toList.drop m.diagnostics.notes.size).countP (fun n => n.mnemonic? == some mnemonic) =
      Diagnostics.tally (m.executed c bound) mnemonic := by
  rw [run?_notes h, if_pos hon, List.append_assoc, ← Array.length_toList, List.drop_left, List.countP_append,
    List.countP_map]
  have hreport : ∀ ranking : List (String × Nat), (ranking.map fun e => Note.count e.1 e.2).countP
      (fun n => n.mnemonic? == some mnemonic) = 0 := by
    intro ranking
    rw [List.countP_map, List.countP_eq_zero]
    rintro e - he
    cases he
  have hnotes : ((fun n : Note => n.mnemonic? == some mnemonic) ∘ Execution.note) =
      fun x => x.2.2.mnemonic == mnemonic := by
    funext x
    rw [Function.comp_apply, Execution.mnemonic?_note]
    rfl
  rw [hnotes]
  split
  · rw [hreport]
    rfl
  · rfl

/-- Over several runs the counts add up. -/
theorem History.counts {xs : List Execution} (h : History xs m) :
    m.diagnostics.Orderly ∧ ∀ mnemonic, m.diagnostics.countOf mnemonic = Diagnostics.tally xs mnemonic := by
  induction h with
  | @made m hnew =>
    refine ⟨⟨?_, ?_⟩, ?_⟩
    · rw [hnew]
      exact List.nodup_nil
    · rw [hnew]
      intro mnemonic n hn
      cases hn
    · intro mnemonic
      rw [Diagnostics.countOf, hnew]
      rfl
  | @changed xs m m' _ hsame ih =>
    refine ⟨ih.1.congr hsame, fun mnemonic => ?_⟩
    rw [← ih.2, Diagnostics.countOf, hsame, Diagnostics.countOf]
  | @ran xs m m' c bound result _ hrun ih =>
    refine ⟨(ih.1.observed m.settings (m.executed c bound)).congr (run?_counts hrun), fun mnemonic => ?_⟩
    rw [run?_countOf hrun, ih.2, Diagnostics.tally_append]
    cases m.settings.profileOpcodes <;> rfl

end Machine

namespace Safety
open Machine Diagnostics

/-- Traces and profiles account for every executed instruction. A ranking lists every mnemonic that has been executed under
a profile since the machine was made once, with its total over all runs, in strict order. A run adds to the diagnostics
under a trace a line for each instruction that comes next after a number of instructions, in their order and with the failing
one, which shows its function, its index, its text, the top operand before it and the number of frames, and under a profile
the lines of the ranking if it succeeds. It adds to the count of a mnemonic the number of the
instructions with it, which is under a trace the number of their notes, and without a profile it keeps the counts. -/
theorem diagnostics_account_for_instructions {xs : List Execution} {m : Machine} (h : History xs m) :
    (∀ mnemonic n, (mnemonic, n) ∈ m.diagnostics.ranking ↔ n = tally xs mnemonic ∧ 0 < n) ∧
      (m.diagnostics.ranking.map Prod.fst).Nodup ∧ m.diagnostics.ranking.Pairwise Before ∧
      ∀ (c : Chunk) (bound : Nat) (result : Except Failure Unit) (m' : Machine), m.run? c bound = some (result, m') →
        (∀ k x, (m.executed c bound)[k]? = some x ↔ ∃ s, m.After c k s ∧ s.next? = some x) ∧
        (∃ lines profile, m'.diagnostics.text = m.diagnostics.text ++ ended (lines ++ profile) ∧
          (if m.settings.trace then List.Forall₂ Execution.Traced (m.executed c bound) lines else lines = []) ∧
          if m.settings.profileOpcodes && result.isOk then List.Forall₂ Profiled m'.diagnostics.ranking profile
          else profile = []) ∧
        (m.settings.profileOpcodes = false → m'.diagnostics.counts = m.diagnostics.counts) ∧
        (m.settings.profileOpcodes = true → ∀ mnemonic,
          m'.diagnostics.countOf mnemonic = m.diagnostics.countOf mnemonic + tally (m.executed c bound) mnemonic) ∧
        (m.settings.trace = true → m.settings.profileOpcodes = true → ∀ mnemonic,
          m'.diagnostics.countOf mnemonic = m.diagnostics.countOf mnemonic +
            (m'.diagnostics.notes.toList.drop m.diagnostics.notes.size).countP fun n => n.mnemonic? == some mnemonic) := by
  obtain ⟨horderly, hcounts⟩ := h.counts
  refine ⟨fun mnemonic n => ?_, nodup_ranking horderly, pairwise_ranking horderly, fun c bound result m' hrun => ?_⟩
  · rw [mem_ranking_iff horderly, hcounts]
  · refine ⟨executed_getElem? hrun, run?_lines hrun, fun hoff => ?_, fun hon mnemonic => ?_, fun htrace hon mnemonic => ?_⟩
    · rw [run?_counts hrun, observed_counts hoff]
    · rw [run?_countOf hrun, if_pos hon]
    · rw [run?_countOf hrun, if_pos hon, run?_traced hrun htrace]

/-- A chunk that writes two texts. -/
def listing : Chunk where
  functions := [⟨"main", 0, #[.op (.push (.str "a")), .write, .op (.push (.str "b")), .write, .ret]⟩]

/-- A chunk that writes a text and then nothing that it could write. -/
def stumbling : Chunk where
  functions := [⟨"main", 0, #[.op (.push (.str "a")), .write, .write, .ret]⟩]

/-- A machine that traces or not, and profiles, with what it has written and its diagnostics. -/
def accountant (trace : Bool) (written : Array UInt8) (d : Diagnostics) : Machine where
  output := { written := written }
  settings := ⟨trace, true⟩
  diagnostics := d

/-- A run that is traced and profiled, and one that fails and is profiled only. -/
theorem listing_is_accounted_for :
    ∃ d d' site, (accountant true #[] {}).run? listing 9 = some (.ok (), accountant true #[97, 98] d) ∧
      (accountant false #[97, 98] d).run? stumbling 9 =
        some (.error ⟨.underflow, some site⟩, accountant false #[97, 98, 97] d') ∧
      d.text = "[trace] main:0 PUSH(a) top=- depth=1\n[trace] main:1 WRITE() top=Str(\"a\") depth=1\n" ++
        "[trace] main:2 PUSH(b) top=- depth=1\n[trace] main:3 WRITE() top=Str(\"b\") depth=1\n" ++
        "[trace] main:4 RET() top=- depth=1\n" ++
        "[profile] PUSH     2\n[profile] WRITE    2\n[profile] RET      1\n" ∧
      d'.text = d.text ∧ d'.ranking = [("WRITE", 4), ("PUSH", 3), ("RET", 1)] := by
  obtain ⟨d, hfirst, hcounts⟩ : ∃ d, (accountant true #[] {}).run? listing 9 =
      some (.ok (), accountant true #[97, 98] d) ∧ d.counts = ⟨[("PUSH", 2), ("WRITE", 2), ("RET", 1)]⟩ :=
    ⟨_, rfl, rfl⟩
  obtain ⟨d', site, hsecond, hcounts'⟩ : ∃ d' site, (accountant false #[97, 98] d).run? stumbling 9 =
      some (.error ⟨.underflow, some site⟩, accountant false #[97, 98, 97] d') ∧
      d'.counts = (((d.count "PUSH").count "WRITE").count "WRITE").counts := ⟨_, _, rfl, rfl⟩
  have hmade : History [] (accountant true #[] {}) := .made rfl
  -- Between the two runs the trace is turned off.
  have hchanged : History _ (accountant false #[97, 98] d) := (hmade.ran hfirst).changed rfl
  obtain ⟨-, -, hsorted, -⟩ := diagnostics_account_for_instructions (hmade.ran hfirst)
  obtain ⟨-, -, hsorted', -⟩ := diagnostics_account_for_instructions (hchanged.ran hsecond)
  have hranking : d.ranking = [("PUSH", 2), ("WRITE", 2), ("RET", 1)] :=
    ranking_eq hsorted (.of_eq (congrArg Table.entries hcounts)) (by decide)
  have hentries : d'.counts.entries = [("PUSH", 3), ("WRITE", 4), ("RET", 1)] := by
    rw [hcounts', count, count, count, hcounts]
    rfl
  have hranking' : d'.ranking = [("WRITE", 4), ("PUSH", 3), ("RET", 1)] :=
    ranking_eq hsorted' ((List.Perm.of_eq hentries).trans (.swap _ _ _)) (by decide)
  have htext := run?_text hfirst
  have htext' := run?_text hsecond
  refine ⟨d, d', site, hfirst, hsecond, ?_, htext'.trans String.append_empty, hranking'⟩
  change d.text = _ ++ ended (_ ++ d.ranking.map _) at htext
  rw [htext, hranking]
  decide +kernel

end Safety
end Bytecode
