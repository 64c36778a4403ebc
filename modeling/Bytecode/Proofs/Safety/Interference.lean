import Bytecode.Job
import Bytecode.Proofs.Lowering.Functions
import Bytecode.Proofs.Machine.Course

/-! Diagnostics do not influence execution. Machines with the same heap and the same streams, whatever their settings are and
    whatever they have counted and noted so far, show the same in every run and in every session of runs, in which their
    settings may change at any time. -/

namespace Bytecode
namespace Machine

/-- The machines have the same heap and the same streams. Their settings and their diagnostics may differ. -/
structure Matches (m m' : Machine) : Prop where
  heap : m.heap = m'.heap
  input : m.input = m'.input
  output : m.output = m'.output

/-- What a run shows apart from its diagnostics: its result, and the heap and the streams that it leaves behind. -/
def shown {ε : Type} (r : Except ε Unit × Machine) : Except ε Unit × Heap × Input × Output :=
  (r.1, r.2.heap, r.2.input, r.2.output)

section
variable {ε : Type} {m m' : Machine} {r r' : Except ε Unit × Machine}

theorem Matches.of_shown (h : shown r = shown r') : r.2.Matches r'.2 := by
  simp only [shown, Prod.mk.injEq] at h
  exact ⟨h.2.1, h.2.2.1, h.2.2.2⟩

theorem Matches.configure (h : m.Matches m') (settings settings' : Settings) (d d' : Diagnostics) :
    Matches { m with settings := settings, diagnostics := d } { m' with settings := settings', diagnostics := d' } :=
  ⟨h.heap, h.input, h.output⟩

theorem Matches.course? (h : m.Matches m') (c : Chunk) (bound : Nat) : m.course? c bound = m'.course? c bound := by
  simp only [Machine.course?, Machine.start, h.heap, h.input, h.output]

/-- What is shown in the end depends on the course of a run alone. -/
theorem shown_finish (m m' : Machine) (settings settings' : Settings) (d d' : Diagnostics) (r : Course) :
    shown (m.finish (r.ending settings d)) = shown (m'.finish (r.ending settings' d')) := by
  unfold finish
  simp only [Course.ending_result, Course.ending_state]
  cases r.result with
  | error failure => rfl
  | ok _ =>
    dsimp only
    cases r.state.output.flush <;> rfl

theorem Matches.run? (h : m.Matches m') (c : Chunk) (bound : Nat) :
    (m.run? c bound).map shown = (m'.run? c bound).map shown := by
  cases hmain : entryPoint? c with
  | none => simp [Machine.run?, hmain, shown, h.heap, h.input, h.output]
  | some main =>
    rw [run?_eq_course? hmain, run?_eq_course? hmain, h.course?]
    cases m'.course? c bound with
    | none => rfl
    | some r => exact congrArg some (shown_finish m m' _ _ _ _ r)

theorem Matches.execute? (h : m.Matches m') (settings settings' : Settings) (c : Chunk) (bound : Nat) :
    (m.execute? settings c bound).map shown = (m'.execute? settings' c bound).map shown := by
  -- The note on the size of the chunk is only one more difference between the diagnostics.
  have hrun : ((m.prepare settings c).run? c bound).map shown = ((m'.prepare settings' c).run? c bound).map shown :=
    (h.configure settings settings' _ _).run? c bound
  have hjob : shown ∘ (fun r : Except Failure Unit × Machine => (r.1.mapError JobError.failure, r.2)) =
      (fun x => (x.1.mapError JobError.failure, x.2)) ∘ shown := rfl
  unfold Machine.execute?
  rw [Option.map_map, Option.map_map, hjob, ← Option.map_map, ← Option.map_map, hrun]

theorem Matches.runProgram? (h : m.Matches m') (settings settings' : Settings) (p : Tree.Program) (bound : Nat) :
    (m.runProgram? settings p bound).map shown = (m'.runProgram? settings' p bound).map shown := by
  unfold Machine.runProgram?
  cases Lowering.lower p with
  | error e => simp [shown, h.heap, h.input, h.output]
  | ok c => exact h.execute? settings settings' c bound

end

/-! ### Sessions -/

/-- What a machine is asked to do. -/
inductive Request where
  | configure (settings : Settings)
  | run (c : Chunk)

/-- The chunk that a request runs. -/
def Request.chunk? : Request → Option Chunk
  | .configure _ => none
  | .run c => some c

/-- What the runs of a session show, one after the other on the same machine; nothing if one of them takes more instructions
than the bound. -/
def session? (bound : Nat) : Machine → List Request → Option (List (Except Failure Unit × Heap × Input × Output))
  | _, [] => some []
  | m, .configure settings :: rest => session? bound { m with settings := settings } rest
  | m, .run c :: rest => do
    let r ← m.run? c bound
    let later ← session? bound r.2 rest
    return shown r :: later

/-- A session shows what its runs show without any change of the settings. -/
theorem Matches.session?_eq {m m' : Machine} (h : m.Matches m') (bound : Nat) (requests : List Request) :
    m.session? bound requests = m'.session? bound ((requests.filterMap Request.chunk?).map .run) := by
  induction requests generalizing m m' with
  | nil => rfl
  | cons request rest ih =>
    cases request with
    | configure settings => exact ih (h.configure settings m'.settings m.diagnostics m'.diagnostics)
    | run c =>
      have hrun := h.run? c bound
      show (m.run? c bound >>= fun r => _) = m'.run? c bound >>= fun r => _
      generalize m.run? c bound = r at hrun
      generalize m'.run? c bound = r' at hrun
      cases r with
      | none =>
        cases r' with
        | none => rfl
        | some r' => cases hrun
      | some r =>
        cases r' with
        | none => cases hrun
        | some r' =>
          -- What a run shows includes the heap and the streams it leaves, so the machines still match.
          have hshown : shown r = shown r' := Option.some.inj hrun
          show (session? bound r.2 rest >>= fun later => some (shown r :: later)) =
            session? bound r'.2 _ >>= fun later => some (shown r' :: later)
          rw [hshown, ih (.of_shown hshown)]

end Machine

namespace Safety
open Lowering Machine

/-- Diagnostics do not influence execution. On machines that differ in their settings and their diagnostics alone, every run
of a chunk ends within the same bounds, with the same result, heap and streams, and so does every program that is run under
settings of its own. The same holds of sessions with the same runs, however the settings are changed between these. -/
theorem diagnostics_do_not_interfere {m m' : Machine} (h : m.Matches m') :
    (∀ c bound, (m.run? c bound).map shown = (m'.run? c bound).map shown) ∧
      (∀ settings settings' p bound,
        (m.runProgram? settings p bound).map shown = (m'.runProgram? settings' p bound).map shown) ∧
      ∀ requests requests' bound, requests.filterMap Request.chunk? = requests'.filterMap Request.chunk? →
        m.session? bound requests = m'.session? bound requests' := by
  refine ⟨h.run?, h.runProgram?, fun requests requests' bound hruns => ?_⟩
  have hmatches : m'.Matches m' := ⟨rfl, rfl, rfl⟩
  rw [h.session?_eq, hruns, ← hmatches.session?_eq]

/-- A machine that is watched, and has counted before. -/
def watched : Machine where
  settings := ⟨true, true⟩
  diagnostics := { counts := ⟨[("PUSH", 3)]⟩ }

/-- The program with a loop and a call runs twice, once traced and once profiled, or without being watched at all. -/
theorem doubling_watched_as_unwatched :
    watched.Matches {} ∧
      watched.session? 60 [.configure ⟨true, false⟩, .run doublingChunk, .configure ⟨false, true⟩,
        .run doublingChunk] =
      Machine.session? 60 {} [.run doublingChunk, .run doublingChunk, .configure ⟨true, true⟩] ∧
      (Machine.session? 60 {} [.run doublingChunk, .run doublingChunk]).map (List.map Prod.fst) =
        some [.ok (), .ok ()] := by
  have hmatches : watched.Matches {} := ⟨rfl, rfl, rfl⟩
  exact ⟨hmatches, (diagnostics_do_not_interfere hmatches).2.2 _ _ 60 rfl, rfl⟩

end Safety
end Bytecode
