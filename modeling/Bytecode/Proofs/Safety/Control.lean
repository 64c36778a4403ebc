import Bytecode.Proofs.Lowering.Occurs
import Bytecode.Proofs.Machine.Effect

/-! Control never leaves the code of lowered programs. Each function is closed: its jumps stay inside and its last
    instruction returns. So in every run every frame has a next instruction, and a run without a fault ends only by the
    return of the first frame. -/

namespace Bytecode.Safety
open Lowering

/-- The code of a function is closed: it ends in a return, and its jumps lead to its own indices. -/
structure Closed (g : Function) : Prop where
  last : g.code.toList.getLast? = some .ret
  jumps : ∀ i ∈ g.code.toList, ∀ target, i.target? = some target → target < g.code.size

/-- The functions of a chunk are closed. -/
def ClosedChunk (c : Chunk) : Prop :=
  ∀ g ∈ c.functions, Closed g

/-- Each frame has a next instruction, in a function that is closed. -/
def Inside (s : State) : Prop :=
  ∀ f ∈ s.frames, Closed f.function ∧ f.pc < f.function.code.size

/-- The first frame of a run, as long as there is one, is of a function. -/
def Based (main : Function) (s : State) : Prop :=
  ∀ f, s.frames.getLast? = some f → f.function = main

/-! ### Functions -/

theorem lowerFunction_closed {layouts : Layouts} {f : Tree.Function} {g : Function}
    (h : lowerFunction layouts f = .ok g) : Closed g := by
  obtain ⟨body, scope, hbody, rfl⟩ := lowerFunction_eq_ok h
  have hjumps := stmtsCode_jumpsWithin hbody
  have hparams := (paramCode_straight f.params).jumpsWithin 0 (f.params.length + body.length)
  have hcode : JumpsWithin 0 (f.params.length + body.length) (paramCode f.params ++ body) :=
    jumpsWithin_append.mpr ⟨hparams, hjumps.mono (Nat.zero_le _) (Nat.le_refl _)⟩
  refine ⟨by simpa using withReturn_getLast? (paramCode f.params ++ body), fun i hi target htarget => ?_⟩
  simp only [List.size_toArray] at hi ⊢
  rcases withReturn_cases (paramCode f.params ++ body) with ⟨-, heq⟩ | ⟨-, heq⟩
  · rw [heq] at hi ⊢
    have hlt := (hcode i hi target htarget).2
    simpa using hlt
  · rw [heq] at hi ⊢
    rcases List.mem_append.mp hi with hi | hi
    · have hlt := (hcode i hi target htarget).2
      simp only [List.length_append, length_paramCode, List.length_cons, List.length_nil]
      omega
    · simp only [List.mem_cons, List.not_mem_nil, or_false] at hi
      rcases hi with rfl | rfl <;> cases htarget

theorem lower_closed {g : Generator} {p : Tree.Program} {c : Chunk} (h : (g.lower p).1 = .ok c) : ClosedChunk c := by
  intro f hf
  rcases lowerFunctions_mem h hf with hf | ⟨_, -, hf⟩
  · cases hf
  · exact lowerFunction_closed hf

namespace Closed
variable {g : Function}

theorem size_pos (h : Closed g) : 0 < g.code.size := by
  have hmem := List.mem_of_getLast? h.last
  have hpos := List.length_pos_of_mem hmem
  simpa using hpos

theorem successor (h : Closed g) {pc pc' : Nat} {i : Instr} (hi : g.code[pc]? = some i) (hpc : pc' ∈ i.successors pc) :
    pc' < g.code.size := by
  have hmem : i ∈ g.code.toList := by
    rw [← Array.getElem?_toList] at hi
    exact List.mem_of_getElem? hi
  have hlt : pc < g.code.size := by
    obtain ⟨hlt, -⟩ := Array.getElem?_eq_some_iff.mp hi
    exact hlt
  -- Only a return stands at the last index, and a return has no successors.
  have hnext : i ≠ .ret → pc + 1 < g.code.size := by
    intro hne
    refine Nat.lt_of_le_of_ne hlt fun heq => hne ?_
    have hlast := h.last
    rw [List.getLast?_eq_getElem?, Array.length_toList, ← heq, Nat.add_sub_cancel, Array.getElem?_toList, hi] at hlast
    exact Option.some.inj hlast
  rcases Instr.next_or_target_of_mem_successors hpc with ⟨hne, rfl⟩ | htarget
  · exact hnext hne
  · exact h.jumps i hmem pc' htarget

end Closed

/-! ### Runs -/

section
variable {c : Chunk} {s t : State} {main : Function}

theorem Inside.next (hc : ClosedChunk c) (h : s.Next c t) (hs : Inside s) : Inside t := by
  obtain ⟨f, callers, i, hframes, hi, hmoved⟩ := h.moved
  rw [Inside, hframes] at hs
  obtain ⟨hclosed, -⟩ := hs f List.mem_cons_self
  intro f' hf'
  rcases hmoved.place hf' with ⟨hfunction, hpc⟩ | ⟨⟨name, hget⟩, hpc⟩ | ⟨g, hg, hfunction, hpc⟩
  · rw [hfunction]
    exact ⟨hclosed, hclosed.successor hi hpc⟩
  · have hcallee := hc _ (Chunk.mem_of_get? hget)
    rw [hpc]
    exact ⟨hcallee, hcallee.size_pos⟩
  · rw [hfunction, hpc]
    exact hs g (List.mem_cons_of_mem _ hg)

theorem inside_of_visits (hc : ClosedChunk c) {m : Machine} (h : m.Visits c s) : Inside s := by
  refine h.induction (fun main hmain => ?_) fun s t _ hnext hs => hs.next hc hnext
  intro f hf
  obtain rfl := List.mem_singleton.mp hf
  have hclosed : Closed main := hc main (Machine.entryPoint?_eq_some hmain).1
  exact ⟨hclosed, hclosed.size_pos⟩

theorem Inside.frames_eq_nil (h : Inside s) (hnext : s.next? = none) : s.frames = [] := by
  unfold State.next? at hnext
  cases hframes : s.frames with
  | nil => rfl
  | cons f callers =>
    rw [hframes] at hnext
    have hlt := (h f (by rw [hframes]; exact List.mem_cons_self)).2
    simp [hlt] at hnext

theorem Based.next (h : s.Next c t) (hs : Based main s) : Based main t := by
  obtain ⟨f, callers, i, hframes, -, hmoved⟩ := h.moved
  rw [Based, hframes] at hs
  unfold Based
  generalize t.frames = frames at hmoved
  cases hmoved with
  | @within _ g hfunction =>
    cases callers with
    | nil =>
      intro f' hf'
      obtain rfl : g = f' := by simpa using hf'
      exact hfunction.trans (hs f rfl)
    | cons g' rest => simpa [List.getLast?_cons] using hs
  | call =>
    cases callers with
    | nil =>
      intro f' hf'
      obtain rfl := Option.some.inj hf'
      exact hs f rfl
    | cons g' rest => simpa [List.getLast?_cons] using hs
  | ret =>
    cases callers with
    | nil => intro f' hf'; cases hf'
    | cons g' rest =>
      -- The frame that gets the result is the lowest one if there is no other left.
      cases rest with
      | nil =>
        intro f' hf'
        obtain rfl := Option.some.inj hf'
        exact hs g' rfl
      | cons g'' rest => simpa [deliver, List.getLast?_cons] using hs

/-- The last frame goes away only by a return. -/
theorem next_of_frames_eq_nil (h : s.Next c t) (ht : t.frames = []) :
    ∃ f, s.frames = [f] ∧ f.function.code[f.pc]? = some .ret := by
  obtain ⟨f, callers, i, hframes, hi, hmoved⟩ := h.moved
  rw [ht] at hmoved
  generalize hnil : ([] : List Frame) = frames at hmoved
  cases hmoved with
  | within => cases hnil
  | call => cases hnil
  | ret =>
    cases callers with
    | nil => exact ⟨f, hframes, hi⟩
    | cons g rest => cases hnil

theorem run_ends (hc : ClosedChunk c) {m : Machine} (hmain : Machine.entryPoint? c = some main) {settings : Settings}
    {bound : Nat} {d : Diagnostics} {e : Ending} (hrun : State.run? c settings bound (m.start main) d = some e)
    (hok : e.result = .ok ()) :
    ∃ s f, m.Visits c s ∧ s.frames = [f] ∧ f.function = main ∧ f.function.code[f.pc]? = some .ret ∧ s.Next c e.state ∧
      e.state.frames = [] := by
  obtain ⟨n, t, -, hsteps, ⟨hnext, -, hstate⟩ | ⟨failure, -, hr⟩⟩ := State.run?_eq_some hrun
  · rw [hstate]
    have hinside := inside_of_visits hc (Machine.visits_of_reaches hmain hsteps.reaches)
    have hnil := hinside.frames_eq_nil hnext
    cases n with
    | zero =>
      obtain rfl := State.Steps.zero_iff.mp hsteps
      cases hnil
    | succ n =>
      obtain ⟨s, hs, hlast⟩ := hsteps.last
      obtain ⟨f, hframes, hi⟩ := next_of_frames_eq_nil hlast hnil
      have hstart : Based main (m.start main) := by
        intro f hf
        obtain rfl := Option.some.inj hf
        rfl
      have hbased : Based main s := hs.keeps (fun _ _ hn hb => Based.next hn hb) hstart
      exact ⟨s, f, Machine.visits_of_reaches hmain hs.reaches, hframes, hbased f (by rw [hframes]; rfl), hi, hlast, hnil⟩
  · rw [hr] at hok
    cases hok

end

/-- Control never leaves the code of a lowered program. The code of each function ends in a return and jumps to its own
indices only, a jump of a statement even into the code of that statement, wherever the statement occurs. So each frame of
every run has a next instruction, and a run without a fault ends only by the return of `main`, which empties the frames. -/
theorem lowered_control_stays_inside {g : Generator} {p : Tree.Program} {c : Chunk} (h : (g.lower p).1 = .ok c) :
    ClosedChunk c ∧
    (∀ f ∈ p.functions, ∃ g', c.get? f.name = some g' ∧
      ∀ scope start s, StmtAt (g.lower p).2.layouts (paramScope f.params) f.params.length f.body scope start s →
        ∃ code scope', stmtCode (g.lower p).2.layouts scope start s = .ok (code, scope') ∧
          Placed g'.code.toList start code ∧ JumpsWithin start (start + code.length) code) ∧
    (∀ (m : Machine) (s : State), m.Visits c s → ∀ f ∈ s.frames, f.pc < f.function.code.size) ∧
    ∀ (m : Machine) (main : Function) (bound : Nat) (d : Diagnostics) (e : Ending), Machine.entryPoint? c = some main →
      State.run? c m.settings bound (m.start main) d = some e → e.result = .ok () →
      ∃ s f, m.Visits c s ∧ s.frames = [f] ∧ f.function = main ∧ f.function.code[f.pc]? = some .ret ∧
        s.Next c e.state ∧ e.state.frames = [] := by
  have hclosed := lower_closed h
  refine ⟨hclosed, ?_, ?_, ?_⟩
  · intro f hf
    obtain ⟨g', hg', hget⟩ := lowerFunctions_of_mem h hf
    refine ⟨g', hget, fun scope start s hs => ?_⟩
    obtain ⟨body, scope₁, hbody, rfl⟩ := lowerFunction_eq_ok hg'
    have hplaced := (placed_code f.params body).2
    obtain ⟨code, scope', hcode, hcodePlaced⟩ := hs.placed hbody hplaced
    exact ⟨code, scope', hcode, hcodePlaced, stmtCode_jumpsWithin hcode⟩
  · intro m s hs f hf
    exact (inside_of_visits hclosed hs f hf).2
  · intro m main bound d e hmain hrun hok
    exact run_ends hclosed hmain hrun hok

theorem doubling_control_stays_inside :
    (Generator.lower {} doubling).1 = .ok doublingChunk ∧
      ∀ (m : Machine) (s : State), m.Visits doublingChunk s → ∀ f ∈ s.frames, f.pc < f.function.code.size :=
  ⟨lower_doubling, (lowered_control_stays_inside lower_doubling).2.2.1⟩

end Bytecode.Safety
