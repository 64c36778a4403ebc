import Bytecode.Proofs.Safety.Discipline

/-! Definite assignment. The indices of a lowered function can be labelled with slots that have been stored on every way to
    them, among them the slots of all variables in scope. So whenever a run loads a slot, the same frame has stored it. -/

namespace Bytecode.Safety
open Evaluation Lowering

/-- The discipline of assigned slots: only slots of the label are loaded, and only a store adds a slot to it. -/
def assignedSlots : Discipline (List Nat) where
  allowed l i := ∀ slot, i = .load slot → slot ∈ l
  flow l i l' := ∀ slot ∈ l', slot ∈ l ∨ i = .store slot
  weaker l l' := l' ⊆ l
  refl := List.Subset.refl
  trans h h' := List.Subset.trans h' h
  flow_weaker hflow hm slot hslot := hflow slot (hm hslot)

/-- If the instruction is a load, it is one of some slots. -/
def LoadsFrom (slots : List Nat) (i : Instr) : Prop :=
  ∀ slot, i = .load slot → slot ∈ slots

section
variable {slots : List Nat} {code : List Instr}

/-! ### Expressions and assignments -/

theorem callInstr_ne_load (name : String) (slot : Nat) : callInstr name ≠ .load slot := by
  unfold callInstr builtin?
  split <;> nofun

theorem ofInstr_load (scope : Scope) : OfInstr scope (LoadsFrom scope.slots) where
  op _ _ := nofun
  load hslot := by
    rintro _ ⟨⟩
    exact Scope.mem_slots hslot
  store _ := nofun
  call name slot hslot := absurd hslot (callInstr_ne_load name slot)

/-- Straight code that loads slots of a label keeps the label. -/
theorem fits_of_loadsFrom {start : Nat} (hstraight : Straight code) (hloads : Each (LoadsFrom slots) code) :
    assignedSlots.Fits (fun _ => True) start slots code slots (fun _ => True) := by
  induction code generalizing start with
  | nil => exact .nil
  | cons i code ih =>
    rw [straight_cons] at hstraight
    rw [each_cons] at hloads
    have hflow : assignedSlots.flow slots i slots := fun slot hslot => Or.inl hslot
    exact (Discipline.Fits.append (.straight hstraight.1 hloads.1 hflow) (ih hstraight.2 hloads.2)).unmark

theorem fits_stores {start : Nat} {l : List Nat} (slots : List Nat) :
    assignedSlots.Fits (fun _ => True) start l (slots.map .store) (slots.reverse ++ l) (fun _ => True) := by
  induction slots generalizing start l with
  | nil => exact .nil
  | cons slot slots ih =>
    have hflow : assignedSlots.flow l (.store slot) (slot :: l) := by
      intro slot' hslot'
      rcases List.mem_cons.mp hslot' with rfl | hslot'
      · exact Or.inr rfl
      · exact Or.inl hslot'
    rw [List.map_cons, List.reverse_cons, List.append_assoc]
    have hallowed : assignedSlots.allowed l (.store slot) := fun slot' hslot' => nomatch hslot'
    exact (Discipline.Fits.append (.straight rfl hallowed hflow) ih).unmark

/-! ### Functions -/

theorem leave_slots_subset (scope : Scope) : scope.leave.slots ⊆ scope.slots := by
  obtain ⟨blocks, next⟩ := scope
  cases blocks with
  | nil => exact List.Subset.refl _
  | cons block rest => simp [Scope.leave, Scope.slots]

theorem follows_assignedSlots (layouts : Layouts) (p : Tree.Program) :
    Follows assignedSlots layouts p False (fun _ => []) Scope.slots Scope.slots where
  same h := Scope.slots_congr h
  enter _ := rfl
  leave scope := leave_slots_subset scope
  expr {scope _ _} hcode _ start :=
    fits_of_loadsFrom (exprCode_straight hcode) (((ofInstr_load scope).exprCases layouts).expr hcode)
  assign {scope _ _} hcode _ start := by
    have hloads := AssignCases.assign ((ofInstr_load scope).exprCases layouts) (ofInstr_load scope).assignCases hcode
    exact fits_of_loadsFrom (assignCode_straight hcode).2 hloads.2
  call {scope name args code} hcode _ start := by
    refine fits_of_loadsFrom (straight_call hcode name) ?_
    rw [each_append, each_cons]
    refine ⟨((ofInstr_load scope).exprCases layouts).args hcode, (ofInstr_load scope).call name, ?_⟩
    split <;> simp [LoadsFrom]
  -- A declaration assigns its slot, so it may be read from then on.
  store scope name := ⟨nofun, fun slot hslot => (Scope.mem_declare_slots hslot).symm.imp id fun h => by rw [h]⟩
  test scope target := ⟨nofun, fun slot hslot => Or.inl hslot⟩
  jump scope target := ⟨nofun, fun slot hslot => Or.inl hslot⟩
  nop scope := ⟨nofun, fun slot hslot => Or.inl hslot⟩
  ret scope := nofun
  null scope := ⟨nofun, fun slot hslot => Or.inl hslot⟩
  params params := by
    refine (fits_stores (List.range params.length)).weaken fun slot hslot => ?_
    have hlt := (paramScope_wellNumbered params).lt_next slot hslot
    rw [paramScope_next] at hlt
    simpa using hlt

end

/-! ### Runs -/

/-- A run from a state to another one in which more than a number of calls are active all the time. The frame that has this
number of callers is then the same all the time. -/
inductive Stays (c : Chunk) (depth : Nat) : State → State → Prop where
  | refl {s : State} (h : depth < s.frames.length) : Stays c depth s s
  | next {s t u : State} (hst : Stays c depth s t) (hnext : t.Next c u) (h : depth < u.frames.length) : Stays c depth s u

/-- On the way to a state, the frame of a function that has some callers has executed a store to a slot. -/
def Stored (m : Machine) (c : Chunk) (s : State) (g : Function) (callers : List Frame) (slot : Nat) : Prop :=
  ∃ u t f, m.Visits c u ∧ u.next? = some (f, callers, .store slot) ∧ f.function = g ∧ u.Next c t ∧
    Stays c callers.length t s

/-- The slots in the label of the index of a frame. -/
def Assigned (label : Function → List (List Nat)) (m : Machine) (c : Chunk) (s : State) (f : Frame)
    (callers : List Frame) : Prop :=
  ∀ l, (label f.function)[f.pc]? = some l → ∀ slot ∈ l,
    slot < f.locals.length ∧ Stored m c s f.function callers slot

/-- Each frame has stored the slots in the label of its index. -/
def AllAssigned (label : Function → List (List Nat)) (m : Machine) (c : Chunk) (s : State) : List Frame → Prop
  | [] => True
  | f :: callers => Assigned label m c s f callers ∧ AllAssigned label m c s callers

section
variable {c : Chunk} {m : Machine} {s t : State} {label : Function → List (List Nat)}

theorem Stored.later {g : Function} {callers : List Frame} {slot : Nat} (h : Stored m c s g callers slot)
    (hnext : s.Next c t) (hlt : callers.length < t.frames.length) : Stored m c t g callers slot := by
  obtain ⟨u, u', f, hu, hstore, hf, hdone, hstays⟩ := h
  exact ⟨u, u', f, hu, hstore, hf, hdone, hstays.next hnext hlt⟩

theorem AllAssigned.later {frames : List Frame} (h : AllAssigned label m c s frames) (hnext : s.Next c t)
    (hle : frames.length ≤ t.frames.length) : AllAssigned label m c t frames := by
  induction frames with
  | nil => trivial
  | cons f callers ih =>
    refine ⟨fun l hl slot hslot => ?_, ih h.2 (Nat.le_of_succ_le hle)⟩
    obtain ⟨hlt, hstored⟩ := h.1 l hl slot hslot
    exact ⟨hlt, hstored.later hnext hle⟩

theorem AllAssigned.next (hlabel : ∀ g ∈ c.functions, Labelled assignedSlots [] g (label g)) (hs : m.Visits c s)
    (hnext : s.Next c t) (h : AllAssigned label m c s s.frames) : AllAssigned label m c t t.frames := by
  obtain ⟨f, callers, i, hframes, hi, hmoved⟩ := hnext.moved
  have hf : f.function ∈ c.functions := State.top_mem hs hframes
  obtain ⟨l, hl, -, hflow⟩ := (hlabel _ hf).sound hi
  rw [hframes] at h
  generalize hframes' : t.frames = frames at hmoved
  cases hmoved with
  | @within _ g hfunction hpc _ hkept hstored =>
    have hlt : callers.length < t.frames.length := by simp [hframes']
    have hgrow : f.locals.length ≤ g.locals.length := by
      by_cases hstore : ∃ slot, i = .store slot
      · obtain ⟨slot, rfl⟩ := hstore
        obtain ⟨v, hv⟩ := hstored slot rfl
        rw [hv, length_storeSlot]
        exact Nat.le_max_left _ _
      · have hsame := hkept fun slot heq => hstore ⟨slot, heq⟩
        exact Nat.le_of_eq (by rw [hsame])
    refine ⟨fun l' hl' slot hslot => ?_, h.2.later hnext (Nat.le_of_lt hlt)⟩
    rw [hfunction] at hl' ⊢
    obtain ⟨l'', hl'', hsub⟩ := hflow _ hpc
    obtain rfl := Option.some.inj (hl'.symm.trans hl'')
    rcases hsub slot hslot with hold | rfl
    · obtain ⟨hslot, hbefore⟩ := h.1 l hl slot hold
      exact ⟨Nat.lt_of_lt_of_le hslot hgrow, hbefore.later hnext hlt⟩
    · obtain ⟨v, hv⟩ := hstored slot rfl
      refine ⟨?_, s, t, f, hs, State.next?_eq_some_iff.mpr ⟨hframes, hi⟩, rfl, hnext, .refl hlt⟩
      rw [hv, length_storeSlot]
      exact Nat.le_max_right _ _
  | @call name g hget harity =>
    have hlt : callers.length + 1 < t.frames.length := by simp [hframes']
    refine ⟨fun l' hl' slot hslot => ?_, fun l' hl' slot hslot => ?_, h.2.later hnext (by omega)⟩
    · -- Nothing is asked of a frame that has just started.
      obtain ⟨l'', hsub, hl''⟩ := (hlabel g (Chunk.mem_of_get? hget)).start
      obtain rfl := Option.some.inj (hl'.symm.trans hl'')
      cases hsub hslot
    · obtain ⟨l'', hl'', hsub⟩ := hflow _ (List.mem_singleton_self _)
      obtain rfl := Option.some.inj (hl'.symm.trans hl'')
      rcases hsub slot hslot with hold | hstore
      · obtain ⟨hslot, hbefore⟩ := h.1 l hl slot hold
        exact ⟨hslot, hbefore.later hnext (Nat.lt_of_succ_lt hlt)⟩
      · cases hstore
  | ret =>
    cases callers with
    | nil => trivial
    | cons g rest => exact h.2.later hnext (by simp [hframes', deliver])

theorem allAssigned_of_visits (hlabel : ∀ g ∈ c.functions, Labelled assignedSlots [] g (label g)) (hs : m.Visits c s) :
    AllAssigned label m c s s.frames := by
  refine hs.induction (P := fun s => AllAssigned label m c s s.frames) (fun main hmain => ?_)
    fun s t hs hnext h => h.next hlabel hs hnext
  refine ⟨fun l hl slot hslot => ?_, trivial⟩
  obtain ⟨l', hsub, hl'⟩ := (hlabel main (Machine.entryPoint?_eq_some hmain).1).start
  obtain rfl := Option.some.inj (hl.symm.trans hl')
  cases hsub hslot

/-- Where a run loads a slot, the frame has a value in it, and has stored it. -/
theorem stored_of_load (hlabel : ∀ g ∈ c.functions, Labelled assignedSlots [] g (label g)) (hs : m.Visits c s) {f : Frame}
    {callers : List Frame} {slot : Nat} (hload : s.next? = some (f, callers, .load slot)) :
    slot < f.locals.length ∧ Stored m c s f.function callers slot := by
  obtain ⟨hframes, hi⟩ := State.next?_eq_some_iff.mp hload
  have hf : f.function ∈ c.functions := State.top_mem hs hframes
  obtain ⟨l, hl, hallowed, -⟩ := (hlabel _ hf).sound hi
  have hall := allAssigned_of_visits hlabel hs
  rw [hframes] at hall
  exact hall.1 l hl slot (hallowed slot rfl)

end

/-- Definite assignment in lowered programs. Whenever a frame of a run comes to load a slot, the same frame has executed a
store to this slot before, so that the slot has a value. So no run fails because a slot was never set. -/
theorem lowered_loads_are_stored {g : Generator} {p : Tree.Program} {c : Chunk} (h : (g.lower p).1 = .ok c) :
    (∀ (m : Machine) (s : State) (f : Frame) (callers : List Frame) (slot : Nat), m.Visits c s →
      s.next? = some (f, callers, .load slot) → f.locals[slot]?.isSome = true ∧
        ∃ u t f', m.Visits c u ∧ u.next? = some (f', callers, .store slot) ∧ f'.function = f.function ∧ u.Next c t ∧
          Stays c callers.length t s) ∧
    ∀ (m m' : Machine) (bound : Nat) (failure : Failure), m.run? c bound = some (.error failure, m') →
      ∀ slot, failure.fault ≠ .unsetSlot slot := by
  obtain ⟨label, hlabel, -⟩ := (follows_assignedSlots (g.lower p).2.layouts p).functions h False.elim
  refine ⟨fun m s f callers slot hs hload => ?_, fun m m' bound failure hrun slot hfault => ?_⟩
  · obtain ⟨hlt, hstored⟩ := stored_of_load hlabel hs hload
    exact ⟨by simp [hlt], hstored⟩
  · rcases Machine.run?_error hrun with rfl | ⟨reason, rfl⟩ | ⟨s, t, hs, f, callers, i, hnext, hstep, -⟩
    · cases hfault
    · cases hfault
    · rcases State.step_faulted hstep (by rw [hfault]; rfl) with ⟨-, hne⟩ | ⟨slot', rfl, hnone, -⟩
      · exact hne slot hfault
      · have hlt := (stored_of_load hlabel hs hnext).1
        simp [hlt] at hnone

theorem doubling_loads_are_stored :
    (Generator.lower {} doubling).1 = .ok doublingChunk ∧
      ∃ s f, ({} : Machine).Visits doublingChunk s ∧ s.next? = some (f, [], .load 0) ∧
        ∃ u t f', ({} : Machine).Visits doublingChunk u ∧ u.next? = some (f', [], .store 0) ∧
          f'.function = f.function ∧ u.Next doublingChunk t ∧ Stays doublingChunk 0 t s := by
  -- The condition of the loop is reached behind the declaration.
  have hvisits : ({} : Machine).Visits doublingChunk
      { frames := [{ function := doublingChunk.functions.head nofun, pc := 2, locals := [.int 1] }] } :=
    Machine.visits_of_reaches rfl (.trans (.single ⟨_, _, _, rfl, rfl⟩) (.single ⟨_, _, _, rfl, rfl⟩))
  exact ⟨lower_doubling, _, _, hvisits, rfl, ((lowered_loads_are_stored lower_doubling).1 {} _ _ [] 0 hvisits rfl).2⟩

end Bytecode.Safety
