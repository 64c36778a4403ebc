import Bytecode.Proofs.Lowering.Callees
import Bytecode.Proofs.Lowering.Forward
import Mathlib.Order.WellFoundedSet
import Mathlib.Tactic.Ring

/-! Runs that end. If the jumps of a chunk lead forward and no function calls itself, not even through others, each function
    has a budget: a number of instructions, those of its callees included, within which each of its calls returns. The
    budget does not depend on what a call finds on the heap and on the streams. Programs without loops and without recursion
    are lowered to such chunks. -/

namespace Bytecode
open Lowering

namespace State

/-- The run from a state ends or fails before it has executed a number of instructions. -/
def HaltsWithin (c : Chunk) (n : Nat) (s : State) : Prop :=
  ∀ t, ¬Steps c n s t

section
variable {c : Chunk} {m n : Nat} {s : State}

theorem HaltsWithin.mono (h : HaltsWithin c m s) (hle : m ≤ n) : HaltsWithin c n s := by
  intro t ht
  obtain ⟨u, hu⟩ := ht.prior hle
  exact h u hu

theorem haltsWithin_succ (h : ∀ t, s.Next c t → HaltsWithin c n t) : HaltsWithin c (n + 1) s := by
  intro u hu
  obtain ⟨t, hnext, hrest⟩ := Steps.succ_iff.mp hu
  exact h t hnext u hrest

theorem haltsWithin_of_frames_eq_nil (h : s.frames = []) : HaltsWithin c 1 s := by
  refine haltsWithin_succ fun t hnext => ?_
  obtain ⟨f, callers, i, hframes, -⟩ := hnext.moved
  rw [h] at hframes
  cases hframes

/-- A run that halts within a bound comes to its end there. -/
theorem HaltsWithin.run? (h : HaltsWithin c n s) (settings : Settings) (d : Diagnostics) :
    ∃ e, State.run? c settings n s d = some e := by
  induction n generalizing s d with
  | zero => exact absurd (.refl s) (h s)
  | succ n ih =>
    unfold State.run?
    cases hnext : s.next? with
    | none => exact ⟨_, rfl⟩
    | some next =>
      obtain ⟨f, callers, i⟩ := next
      cases hstep : s.step c f callers i with
      | faulted fault t => exact ⟨_, by simp only [hstep]; rfl⟩
      | running t =>
        have hrest : HaltsWithin c n t := fun u hu => h u (.next ⟨f, callers, i, hnext, hstep⟩ hu)
        simp only [hstep]
        exact ih hrest _

end
end State

/-! ### Budgets -/

/-- The calls of a function return within a number of instructions: if what follows a return halts within a further
number, then everything halts within both together. -/
def Chunk.Budget (c : Chunk) (g : Function) (n : Nat) : Prop :=
  ∀ callers k, (∀ v t, t.frames = deliver v callers → State.HaltsWithin c k t) →
    ∀ s f, s.frames = f :: callers → f.function = g → State.HaltsWithin c (n + k) s

/-- A function of a chunk calls another one. -/
def Chunk.Calls (c : Chunk) (g g' : Function) : Prop :=
  g ∈ c.functions ∧ ∃ name, .call name ∈ g.code.toList ∧ c.get? name = some g'

/-- No function of a chunk calls itself, not even through others. -/
def Chunk.Acyclic (c : Chunk) : Prop :=
  ∀ g, ¬Relation.TransGen c.Calls g g

namespace Chunk
variable {c : Chunk} {g : Function} {m n : Nat}

theorem Budget.mono (h : c.Budget g m) (hle : m ≤ n) : c.Budget g n :=
  fun callers k hreturn s f hs hf => (h callers k hreturn s f hs hf).mono (Nat.add_le_add_right hle k)

/-- A budget for the callees gives one for the function: each of its instructions is executed at most once, and may be a
call. -/
theorem budget_of_callees (hg : g ∈ c.functions) (hforward : Forward 0 g.code.toList)
    (hcallees : ∀ g', c.Calls g g' → c.Budget g' n) : c.Budget g ((g.code.size + 1) * (n + 1)) := by
  intro callers k hreturn
  -- By induction on the instructions from the index of the frame on, which get fewer with every step inside the frame.
  suffices hrest : ∀ rest s f, s.frames = f :: callers → f.function = g → g.code.size - f.pc ≤ rest →
      State.HaltsWithin c ((rest + 1) * (n + 1) + k) s from
    fun s f hs hf => hrest g.code.size s f hs hf (Nat.sub_le _ _)
  intro rest
  induction rest with
  | zero =>
    intro s f hs hf hle
    refine (State.haltsWithin_succ fun t hnext => ?_ : State.HaltsWithin c (0 + 1) s).mono (by omega)
    obtain ⟨f', callers', i, hs', hi, -⟩ := hnext.moved
    obtain ⟨rfl, rfl⟩ := List.cons.inj (hs.symm.trans hs')
    obtain ⟨hlt, -⟩ := Array.getElem?_eq_some_iff.mp hi
    subst hf
    omega
  | succ rest ih =>
    intro s f hs hf hle
    have hsum : (rest + 1 + 1) * (n + 1) + k = n + ((rest + 1) * (n + 1) + k) + 1 := by ring
    rw [hsum]
    refine State.haltsWithin_succ fun t hnext => ?_
    obtain ⟨f', callers', i, hs', hi, hmoved⟩ := hnext.moved
    obtain ⟨rfl, rfl⟩ := List.cons.inj (hs.symm.trans hs')
    subst hf
    rw [← Array.getElem?_toList] at hi
    obtain ⟨hlt, -⟩ := List.getElem?_eq_some_iff.mp hi
    rw [Array.length_toList] at hlt
    generalize hframes : t.frames = frames at hmoved
    cases hmoved with
    | @within _ f' hfunction hpc =>
      have hahead : f.pc < f'.pc := by
        rcases Instr.next_or_target_of_mem_successors hpc with ⟨-, hnext⟩ | htarget
        · omega
        · have hjump := hforward.get hi htarget
          omega
      have hhalts := ih t f' hframes hfunction (by omega)
      exact hhalts.mono (Nat.le_add_left _ _)
    | @call name g' hget =>
      have hcalls : c.Calls f.function g' := ⟨hg, name, List.mem_of_getElem? hi, hget⟩
      refine hcallees g' hcalls _ _ (fun v u hu => ?_) t _ hframes rfl
      exact ih u _ hu rfl (by simp only; omega)
    | ret =>
      have hhalts := hreturn _ t hframes
      exact hhalts.mono (by omega)

theorem wellFoundedOn_calls (hacyclic : c.Acyclic) : {g | g ∈ c.functions}.WellFoundedOn fun g' g => c.Calls g g' := by
  have horder : IsStrictOrder Function fun g' g => Relation.TransGen c.Calls g g' :=
    { irrefl := hacyclic
      trans := fun _ _ _ h h' => h'.trans h }
  have hfinite : {g | g ∈ c.functions}.WellFoundedOn fun g' g => Relation.TransGen c.Calls g g' :=
    (List.finite_toSet c.functions).wellFoundedOn
  exact hfinite.mono' fun _ _ _ _ hcalls => .single hcalls

/-- Finitely many functions with budgets have one in common. -/
theorem exists_common_budget {P : Function → Prop} {functions : List Function}
    (h : ∀ g ∈ functions, P g → ∃ n, c.Budget g n) : ∃ n, ∀ g ∈ functions, P g → c.Budget g n := by
  induction functions with
  | nil => exact ⟨0, nofun⟩
  | cons g rest ih =>
    obtain ⟨hg, hrest⟩ := List.forall_mem_cons.mp h
    obtain ⟨n, hn⟩ := ih hrest
    by_cases hP : P g
    · obtain ⟨m, hm⟩ := hg hP
      refine ⟨max m n, List.forall_mem_cons.mpr ⟨fun _ => hm.mono (Nat.le_max_left m n), fun g' hg' hP' => ?_⟩⟩
      exact (hn g' hg' hP').mono (Nat.le_max_right m n)
    · exact ⟨n, List.forall_mem_cons.mpr ⟨fun hP' => absurd hP' hP, hn⟩⟩

theorem exists_budget (hforward : ∀ g ∈ c.functions, Forward 0 g.code.toList) (hacyclic : c.Acyclic)
    (hg : g ∈ c.functions) : ∃ n, c.Budget g n := by
  refine (wellFoundedOn_calls hacyclic).induction (P := fun g => ∃ n, c.Budget g n) hg fun g hg ih => ?_
  obtain ⟨n, hn⟩ := exists_common_budget ih
  have hcallees : ∀ g', c.Calls g g' → c.Budget g' n := by
    intro g' hcalls
    obtain ⟨-, name, -, hget⟩ := id hcalls
    exact hn g' (mem_of_get? hget) hcalls
  exact ⟨_, budget_of_callees hg (hforward g hg) hcallees⟩

/-- All runs of such a chunk end within one number of instructions. -/
theorem exists_run_bound (hforward : ∀ g ∈ c.functions, Forward 0 g.code.toList) (hacyclic : c.Acyclic) :
    ∃ bound, ∀ m : Machine, ∃ r, m.run? c bound = some r := by
  unfold Machine.run?
  cases hmain : Machine.entryPoint? c with
  | none => exact ⟨0, fun m => ⟨_, rfl⟩⟩
  | some main =>
    obtain ⟨n, hn⟩ := exists_budget hforward hacyclic (Machine.entryPoint?_eq_some hmain).1
    refine ⟨n + 1, fun m => ?_⟩
    have hhalts := hn [] 1 (fun _ _ hs => State.haltsWithin_of_frames_eq_nil hs) (m.start main) _ rfl rfl
    obtain ⟨e, he⟩ := hhalts.run? m.settings m.diagnostics
    exact ⟨m.finish e, by simp only [he, Option.map_some]⟩

end Chunk

namespace Safety

/-! ### Programs -/

/-- No statement of the program is a loop. -/
def LoopFree (p : Tree.Program) : Prop :=
  ∀ f ∈ p.functions, stmtsLoopFree f.body = true

instance (p : Tree.Program) : Decidable (LoopFree p) :=
  inferInstanceAs (Decidable (∀ f ∈ p.functions, stmtsLoopFree f.body = true))

/-- A function of the program calls another one by its name, which is not that of a function that every program knows. -/
def Calls (p : Tree.Program) (f f' : Tree.Function) : Prop :=
  f ∈ p.functions ∧ f' ∈ p.functions ∧ f'.name ∈ stmtsCallees f.body ∧ builtin? f'.name = none

/-- No function of the program calls itself, not even through others. -/
def Acyclic (p : Tree.Program) : Prop :=
  ∀ f, ¬Relation.TransGen (Calls p) f f

section
variable {layouts : Layouts} {p : Tree.Program} {c : Chunk}

/-- A call of the chunk is one of the program. -/
theorem calls_of_lowered (hlower : lowerFunctions layouts {} p.functions = .ok c) {f : Tree.Function} {g g' : Function}
    (hf : f ∈ p.functions) (hg : lowerFunction layouts f = .ok g) (hcalls : c.Calls g g') :
    ∃ f', Calls p f f' ∧ lowerFunction layouts f' = .ok g' := by
  obtain ⟨-, name, hname, hget⟩ := hcalls
  rw [← mem_calledNames, lowerFunction_calls hg, mem_ownNames] at hname
  have hfound := lowerFunctions_get? hlower name
  cases hfind : p.functions.find? fun f => f.name == name with
  | none =>
    simp only [hfind, hget] at hfound
    cases hfound
  | some f' =>
    simp only [hfind, hget] at hfound
    obtain ⟨_, hg', ⟨⟩⟩ := hfound
    obtain rfl : f'.name = name := by simpa using List.find?_some hfind
    exact ⟨f', ⟨hf, List.mem_of_find?_eq_some hfind, hname⟩, hg'⟩

theorem acyclic_lowered (hlower : lowerFunctions layouts {} p.functions = .ok c) (hacyclic : Acyclic p) : c.Acyclic := by
  have hchain : ∀ f g g', f ∈ p.functions → lowerFunction layouts f = .ok g → Relation.TransGen c.Calls g g' →
      ∃ f', Relation.TransGen (Calls p) f f' ∧ f' ∈ p.functions ∧ lowerFunction layouts f' = .ok g' := by
    intro f g g' hf hg hcalls
    induction hcalls with
    | single hcalls =>
      obtain ⟨f', hcalls', hg'⟩ := calls_of_lowered hlower hf hg hcalls
      exact ⟨f', .single hcalls', hcalls'.2.1, hg'⟩
    | tail _ hcalls ih =>
      obtain ⟨f₁, hchain, hf₁, hg₁⟩ := ih
      obtain ⟨f', hcalls', hg'⟩ := calls_of_lowered hlower hf₁ hg₁ hcalls
      exact ⟨f', hchain.tail hcalls', hcalls'.2.1, hg'⟩
  intro g hcycle
  obtain ⟨_, hcalls, -⟩ := Relation.TransGen.head'_iff.mp hcycle
  rcases lowerFunctions_mem hlower hcalls.1 with hmem | ⟨f, hf, hg⟩
  · cases hmem
  · obtain ⟨f', hchain', hf', hg'⟩ := hchain f g g hf hg hcycle
    have hname : f.name = f'.name := (lowerFunction_name hg).symm.trans (lowerFunction_name hg')
    obtain rfl := lowerFunctions_name_inj hlower hf hf' hname
    exact hacyclic f hchain'

theorem forward_lowered (hlower : lowerFunctions layouts {} p.functions = .ok c) (hfree : LoopFree p) :
    ∀ g ∈ c.functions, Forward 0 g.code.toList := by
  intro g hg
  rcases lowerFunctions_mem hlower hg with hmem | ⟨f, hf, hlowered⟩
  · cases hmem
  · exact lowerFunction_forward hlowered (hfree f hf)

end

/-- A program without loops in which no function calls itself, not even through others, always ends: its jumps lead forward,
and there is a number of instructions within which it ends or fails on every machine, whatever the input is and whatever
the types and numbers of the arguments are. -/
theorem loop_free_program_ends {g : Generator} {p : Tree.Program} {c : Chunk} (h : (g.lower p).1 = .ok c)
    (hfree : LoopFree p) (hacyclic : Acyclic p) :
    (∀ f ∈ c.functions, ∀ (pc : Nat) (i : Instr) (target : Nat), f.code[pc]? = some i → i.target? = some target →
      pc < target) ∧
      ∃ bound, ∀ m : Machine, ∃ r, m.run? c bound = some r := by
  have hforward := forward_lowered h hfree
  refine ⟨fun f hf pc i target hi htarget => ?_, c.exists_run_bound hforward (acyclic_lowered h hacyclic)⟩
  rw [← Array.getElem?_toList] at hi
  have hlt := (hforward f hf).get hi htarget
  omega

/-- A number that gets smaller with every call shows that there is no cycle. -/
theorem acyclic_of_decreasing {p : Tree.Program} (level : Tree.Function → Nat)
    (h : ∀ f f', Calls p f f' → level f' < level f) : Acyclic p := by
  have hless : ∀ f f', Relation.TransGen (Calls p) f f' → level f' < level f := by
    intro f f' hcalls
    induction hcalls with
    | single hcalls => exact h _ _ hcalls
    | tail _ hcalls ih => exact Nat.lt_trans (h _ _ hcalls) ih
  exact fun f hcycle => Nat.lt_irrefl _ (hless f f hcycle)

/-- A program that reads a line and calls another function, with one argument too few, if the line is long. -/
def measuring : Tree.Program where
  functions := [
    { name := "main", result := .void, body := [
        .choose (.mk (.binary .lt (.literal (.int 2)) (.call "length" [.call "input" []]))
            [.call "report" [.literal (.str "long")]])
          [] [.print (.literal (.str "short"))]] },
    { name := "report", result := .void, params := [⟨"a", { name := "string" }⟩, ⟨"b", { name := "string" }⟩], body := [
        .print (.call "concat" [.var "a", .var "b"])] }]

/-- The chunk of the program. -/
def measuringChunk : Chunk where
  functions := [
    ⟨"main", 0, #[.op (.push (.int 2)), .read, .op .textLength, .op (.order .lt), .jumpUnless 9,
      .op (.push (.str "long")), .call "report", .op .pop, .jump 11, .op (.push (.str "short")), .write, .op .nop,
      .op (.push .null), .ret]⟩,
    ⟨"report", 2, #[.store 0, .store 1, .load 0, .load 1, .op .concat, .write, .op (.push .null), .ret]⟩]

theorem measuring_ends :
    (Generator.lower {} measuring).1 = .ok measuringChunk ∧ LoopFree measuring ∧ Acyclic measuring ∧
      ∃ bound, ∀ m : Machine, ∃ r, m.run? measuringChunk bound = some r := by
  have hlower : (Generator.lower {} measuring).1 = .ok measuringChunk := rfl
  have hfree : LoopFree measuring := by decide
  have hacyclic : Acyclic measuring := by
    refine acyclic_of_decreasing (fun f => if f.name = "main" then 1 else 0) ?_
    rintro f f' ⟨hf, hf', hcallee, -⟩
    simp only [measuring, List.mem_cons, List.not_mem_nil, or_false] at hf hf'
    rcases hf with rfl | rfl <;> rcases hf' with rfl | rfl <;> revert hcallee <;> decide
  exact ⟨hlower, hfree, hacyclic, (loop_free_program_ends hlower hfree hacyclic).2⟩

end Safety
end Bytecode
