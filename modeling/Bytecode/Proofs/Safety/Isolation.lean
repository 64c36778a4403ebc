import Bytecode.Proofs.Machine.Effect

/-! Callers are isolated from what they call. A call takes its arguments from the operands of the caller and nothing else;
    from then on, until the number of active calls is down to what it was, no instruction reaches the frames below the callee
    (`Next.over`, `RunsAbove.over`), and the return that brings it down puts one value on the operands of the caller. -/

namespace Bytecode
namespace State

/-- How many calls are active. -/
def depth (s : State) : Nat :=
  s.frames.length

/-- Instructions lead from a state to another one, each of them executed while more calls are active than a depth. -/
def RunsAbove (c : Chunk) (depth : Nat) (s t : State) : Prop :=
  ∃ xs, Trail (fun s x t => depth < s.depth ∧ s.Does c x t) xs s t

/-- The innermost frames, one or more, lie over others. -/
def Over (below : List Frame) (s : State) : Prop :=
  ∃ above, above ≠ [] ∧ s.frames = above ++ below

/-- The only frame over others returns its top operand, or null if it has none. -/
def Returns (c : Chunk) (below : List Frame) (s t : State) : Prop :=
  ∃ f, s.frames = f :: below ∧ f.function.code[f.pc]? = some .ret ∧ s.Next c t ∧
    t.frames = deliver (f.stack.head?.getD .null) below

variable {c : Chunk} {s t u : State} {below : List Frame}

theorem RunsAbove.refl (c : Chunk) (depth : Nat) (s : State) : RunsAbove c depth s s :=
  ⟨[], .refl s⟩

theorem RunsAbove.next {depth : Nat} (above : depth < s.depth) (h : s.Next c t) (rest : RunsAbove c depth t u) :
    RunsAbove c depth s u := by
  obtain ⟨x, hx⟩ := h.does
  obtain ⟨xs, hxs⟩ := rest
  exact ⟨x :: xs, .next ⟨above, hx⟩ hxs⟩

theorem Over.of_cons (f : Frame) (above : List Frame) (hframes : s.frames = f :: above ++ below) : s.Over below :=
  ⟨f :: above, List.cons_ne_nil f above, hframes⟩

theorem Over.lt_depth (h : s.Over below) : below.length < s.depth := by
  obtain ⟨above, hne, hframes⟩ := h
  have hpos : 0 < above.length := List.length_pos_of_ne_nil hne
  rw [depth, hframes, List.length_append]
  omega

theorem Returns.depth_eq (h : Returns c below s t) : t.depth = below.length := by
  obtain ⟨f, -, -, -, hframes⟩ := h
  rw [depth, hframes]
  cases below <;> rfl

/-- A step leaves the frames below alone, unless it is the return of the only frame over them. -/
theorem Next.over (h : s.Next c t) (hs : s.Over below) : t.Over below ∨ Returns c below s t := by
  obtain ⟨above, hne, hs⟩ := hs
  obtain ⟨g, above, rfl⟩ := List.exists_cons_of_ne_nil hne
  obtain ⟨f, callers, i, hframes, hi, hmoved⟩ := h.moved
  obtain ⟨rfl, rfl⟩ : f = g ∧ callers = above ++ below := List.cons.inj (hframes.symm.trans hs)
  generalize hframes' : t.frames = frames at hmoved
  cases hmoved with
  | @within _ g => exact Or.inl (.of_cons g above hframes')
  | @call _ g => exact Or.inl (.of_cons _ (_ :: above) hframes')
  | ret =>
    cases above with
    | nil => exact Or.inr ⟨f, hframes, hi, h, hframes'⟩
    | cons g above =>
      -- The value goes to a frame that itself lies over the others.
      exact Or.inl (.of_cons _ above hframes')

/-- Instructions that are executed over frames leave these alone; only the last of them may be the return to them. -/
theorem RunsAbove.over (h : RunsAbove c below.length s t) (hs : s.Over below) :
    t.Over below ∨ ∃ u, RunsAbove c below.length s u ∧ Returns c below u t := by
  obtain ⟨xs, hxs⟩ := h
  induction hxs with
  | refl s => exact Or.inl hs
  | @next x xs s t u first rest ih =>
    obtain ⟨habove, hdoes⟩ := first
    rcases hdoes.next.over hs with ht | hreturns
    · rcases ih ht with hu | ⟨r, hr, hreturns⟩
      · exact Or.inl hu
      · exact Or.inr ⟨r, .next habove hdoes.next hr, hreturns⟩
    · -- With the return the depth is down, so that no instruction may follow.
      cases rest with
      | refl => exact Or.inr ⟨s, .refl c _ s, hreturns⟩
      | next first' => exact absurd (hreturns.depth_eq ▸ first'.1) (Nat.lt_irrefl _)

end State

namespace Safety
open State

/-- Callers are isolated from what they call. A call moves as many operands as the function takes from the caller to the callee
and leaves the rest of the caller, and the frames below it, as they were. As long as instructions are executed while more
calls are active than before the call, the frame of the caller and all frames below it stay like this. The instruction that
brings the number of calls down again is the return of the callee, and puts one value on the operands of the caller. -/
theorem callers_are_isolated {c : Chunk} {s t : State} {f : Frame} {callers : List Frame} {name : String}
    (hcall : s.next? = some (f, callers, .call name)) (hnext : s.Next c t) :
    ∃ g args rest, c.get? name = some g ∧ args.length = g.arity ∧ f.stack = args ++ rest ∧
      t.frames = { function := g, stack := args.reverse } :: { f with pc := f.pc + 1, stack := rest } :: callers ∧
      ∀ u, RunsAbove c s.depth t u →
        (s.depth < u.depth ∧ ∃ above, u.frames = above ++ { f with pc := f.pc + 1, stack := rest } :: callers) ∨
        (u.depth = s.depth ∧ ∃ r callee v, RunsAbove c s.depth t r ∧ r.Next c u ∧
          r.frames = callee :: { f with pc := f.pc + 1, stack := rest } :: callers ∧
          callee.function.code[callee.pc]? = some .ret ∧ v = callee.stack.head?.getD .null ∧
          u.frames = { f with pc := f.pc + 1, stack := v :: rest } :: callers) := by
  obtain ⟨g, hget, henough, rfl⟩ := step_call_running ((next_iff hcall).mp hnext)
  refine ⟨g, f.stack.take g.arity, f.stack.drop g.arity, hget, List.length_take_of_le henough,
    (List.take_append_drop _ _).symm, rfl, fun u hu => ?_⟩
  have hdepth : s.depth = callers.length + 1 := by
    rw [depth, (next?_eq_some_iff.mp hcall).1, List.length_cons]
  rw [hdepth] at hu ⊢
  have hstart : State.Over ({ f with pc := f.pc + 1, stack := f.stack.drop g.arity } :: callers) (s.withFrames _) :=
    .of_cons { function := g, stack := (f.stack.take g.arity).reverse } [] rfl
  rcases hu.over hstart with hover | ⟨r, hr, hreturns⟩
  · obtain ⟨above, -, hframes⟩ := id hover
    exact Or.inl ⟨hover.lt_depth, above, hframes⟩
  · obtain ⟨callee, hcallee, hret, hrnext, hframes⟩ := id hreturns
    exact Or.inr ⟨hreturns.depth_eq, r, callee, _, hr, hrnext, hcallee, hret, rfl, hframes⟩

/-- A function that adds what it gets back from a call to an operand of its own. -/
def adding : Function :=
  ⟨"main", 0, #[.op (.push (.int 7)), .op (.push (.int 5)), .call "relay", .op (.arith .add), .ret]⟩

/-- The called function hands its argument on to another one, which puts it into a slot on its way. -/
def relaying : Chunk where
  functions := [⟨"keep", 1, #[.store 3, .load 3, .ret]⟩, adding, ⟨"relay", 1, #[.call "keep", .ret]⟩]

/-- The state before the call. -/
def beforeRelay : State where
  frames := [{ function := adding, pc := 2, stack := [.int 5, .int 7] }]

/-- The operand that is no argument is still there when the call has returned. -/
theorem relaying_is_isolated :
    beforeRelay.next? = some ({ function := adding, pc := 2, stack := [.int 5, .int 7] }, [], .call "relay") ∧
      ∃ t u, beforeRelay.Next relaying t ∧ RunsAbove relaying beforeRelay.depth t u ∧
        ∃ v, u.frames = [{ function := adding, pc := 3, stack := [v, .int 7] }] := by
  obtain ⟨t, hnext, u, hu, hdepth⟩ : ∃ t, beforeRelay.Next relaying t ∧
      ∃ u, RunsAbove relaying beforeRelay.depth t u ∧ u.depth = beforeRelay.depth := by
    refine ⟨_, ⟨_, _, _, rfl, rfl⟩, _, .next ?_ ⟨_, _, _, rfl, rfl⟩ (.next ?_ ⟨_, _, _, rfl, rfl⟩
      (.next ?_ ⟨_, _, _, rfl, rfl⟩ (.next ?_ ⟨_, _, _, rfl, rfl⟩ (.next ?_ ⟨_, _, _, rfl, rfl⟩ (.refl _ _ _))))), rfl⟩ <;>
      decide
  obtain ⟨g, args, rest, hget, hlength, hstack, -, hafter⟩ := callers_are_isolated rfl hnext
  cases hget
  obtain ⟨v, rfl⟩ : ∃ v, args = [v] := List.length_eq_one_iff.mp hlength
  cases hstack
  refine ⟨rfl, t, u, hnext, hu, ?_⟩
  rcases hafter u hu with ⟨hlt, -⟩ | ⟨-, r, callee, v, -, -, -, -, -, hframes⟩
  · exact absurd hdepth (Nat.ne_of_gt hlt)
  · exact ⟨v, hframes⟩

end Safety
end Bytecode
