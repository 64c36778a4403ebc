import Bytecode.Proofs.Correctness.Program
import Bytecode.Proofs.Lowering.Renaming

/-! Detours through a slot. A function may have other slots and targets than another one, and behind some instructions that
    leave a value it may store this value in a slot of its own and load it again. Runs of a chunk with such counterparts of
    the functions of another chunk mirror the runs of the other one step by step, apart from the detours, and so come out in
    the same way. -/

namespace Bytecode.Correctness
open Lowering State

/-- How the counterpart of a function goes on behind an instruction: at the next index, or after a detour. -/
inductive Onward (slot target : Nat → Nat) (code : Array Instr) (pc : Nat) (i : Instr) : Prop where
  | direct (hnext : target (pc + 1) = target pc + 1)
  | detour {n : Nat} (hpushes : i.pushes = true) (hfree : ∀ k, slot k ≠ n) (hstore : code[target pc + 1]? = some (.store n))
      (hload : code[target pc + 2]? = some (.load n)) (hnext : target (pc + 1) = target pc + 3)

/-- The second function has the instructions of the first one with renamed slots and targets, and may have detours between
them. -/
structure Counterpart (slot target : Nat → Nat) (h h' : Function) : Prop where
  name : h'.name = h.name
  arity : h'.arity = h.arity
  slots : ∀ j k, j < k → slot j < slot k
  start : target 0 = 0
  code : ∀ pc, h'.code[target pc]? = h.code[pc]?.map (Instr.rename slot target)
  onward : ∀ pc i, h.code[pc]? = some i → Onward slot target h'.code pc i

/-- The second function is a counterpart of the first one under some renaming. -/
def Counterparts (h h' : Function) : Prop :=
  ∃ slot target, Counterpart slot target h h'

/-- The second chunk has the counterparts of the functions of the first one. -/
def Mirrored (c c' : Chunk) : Prop :=
  ∀ name, Option.Rel Counterparts (c.get? name) (c'.get? name)

/-! ### Slots -/

/-- The slots have copies under other numbers. -/
structure Copies (slot : Nat → Nat) (locals locals' : List Value) : Prop where
  value : ∀ k, locals'[slot k]?.getD .null = locals[k]?.getD .null
  set : ∀ k, k < locals.length → slot k < locals'.length

namespace Copies
variable {slot : Nat → Nat} {locals locals' : List Value}

theorem nil (slot : Nat → Nat) : Copies slot [] [] :=
  ⟨fun _ => rfl, nofun⟩

theorem get (h : Copies slot locals locals') {k : Nat} (hk : k < locals.length) : locals'[slot k]? = locals[k]? := by
  have hvalue := h.value k
  rw [List.getElem?_eq_getElem hk, List.getElem?_eq_getElem (h.set k hk)] at hvalue ⊢
  exact congrArg some hvalue

theorem getD_storeSlot (v : Value) (n : Nat) (locals : List Value) (k : Nat) :
    (storeSlot v n locals)[k]?.getD .null = if k = n then v else locals[k]?.getD .null := by
  rw [getElem?_storeSlot]
  split
  · rfl
  · split <;> rfl

theorem store (h : Copies slot locals locals') (hslots : ∀ j k, j < k → slot j < slot k) (v : Value) (n : Nat) :
    Copies slot (storeSlot v n locals) (storeSlot v (slot n) locals') := by
  have hinj : ∀ k, slot k = slot n ↔ k = n := by
    intro k
    rcases Nat.lt_trichotomy k n with hlt | rfl | hlt
    · have := hslots k n hlt
      omega
    · exact ⟨fun _ => rfl, fun _ => rfl⟩
    · have := hslots n k hlt
      omega
  refine ⟨fun k => ?_, fun k hk => ?_⟩
  · rw [getD_storeSlot, getD_storeSlot, if_congr (hinj k) rfl rfl, h.value k]
  · rw [length_storeSlot] at hk ⊢
    rcases Nat.lt_trichotomy k n with hlt | rfl | hlt
    · have := hslots k n hlt
      omega
    · omega
    · have := h.set k (by omega)
      omega

/-- A slot that is no copy can be set at will. -/
theorem detour (h : Copies slot locals locals') {n : Nat} (hfree : ∀ k, slot k ≠ n) (v : Value) :
    Copies slot locals (storeSlot v n locals') := by
  refine ⟨fun k => ?_, fun k hk => ?_⟩
  · rw [getD_storeSlot, if_neg (hfree k), h.value k]
  · have := h.set k hk
    rw [length_storeSlot]
    omega

end Copies

/-! ### Frames and states -/

/-- The frame of a call of a counterpart. -/
structure Mirrors (slot target : Nat → Nat) (f f' : Frame) : Prop where
  function : Counterpart slot target f.function f'.function
  pc : f'.pc = target f.pc
  stack : f'.stack = f.stack
  locals : Copies slot f.locals f'.locals

/-- The frames of the calls of counterparts. -/
abbrev MirrorsAll : List Frame → List Frame → Prop :=
  List.Forall₂ fun f f' => ∃ slot target, Mirrors slot target f f'

/-- The state of a run of counterparts. -/
structure Reflects (s s' : State) : Prop where
  frames : MirrorsAll s.frames s'.frames
  rest : s' = s.withFrames s'.frames

/-- A run of counterparts comes to a state that reflects another one. -/
def Leads (c' : Chunk) (s s' : State) : Prop :=
  ∃ n t, Steps c' n s' t ∧ Reflects s t

/-! ### Steps -/

section
variable {c c' : Chunk} {slot target : Nat → Nat} {f f' : Frame} {callers callers' : List Frame} {i : Instr}

theorem Reflects.leads {s s' : State} (h : Reflects s s') : Leads c' s s' :=
  ⟨0, s', .refl s', h⟩

theorem reflects_withFrames {frames frames' : List Frame} (h : MirrorsAll frames frames') (s : State) :
    Reflects (s.withFrames frames) (s.withFrames frames') :=
  ⟨h, rfl⟩

theorem Mirrors.leads (hf : Mirrors slot target f f') (hcallers : MirrorsAll callers callers') (s : State) :
    Leads c' (s.withFrames (f :: callers)) (s.withFrames (f' :: callers')) :=
  (reflects_withFrames (.cons ⟨slot, target, hf⟩ hcallers) s).leads

/-- Behind an instruction the counterpart comes to the index of the next one. On a detour it needs the value that the
instruction has left. -/
theorem Onward.leads {function function' : Function} {pc : Nat} {stack : Operands} {locals locals' : List Value}
    (h : Onward slot target function'.code pc i) (hfunction : Counterpart slot target function function')
    (hvalue : i.pushes = true → stack ≠ []) (hlocals : Copies slot locals locals') (hcallers : MirrorsAll callers callers')
    (s : State) : Leads c' (s.withFrames (⟨function, pc + 1, stack, locals⟩ :: callers))
      (s.withFrames (⟨function', target pc + 1, stack, locals'⟩ :: callers')) := by
  cases h with
  | direct hnext =>
    have hmirrors : Mirrors slot target ⟨function, pc + 1, stack, locals⟩ ⟨function', target pc + 1, stack, locals'⟩ :=
      ⟨hfunction, hnext.symm, rfl, hlocals⟩
    exact hmirrors.leads hcallers s
  | @detour n hpushes hfree hstore hload hnext =>
    obtain ⟨v, rest, rfl⟩ := List.exists_cons_of_ne_nil (hvalue hpushes)
    let stored : Frame := ⟨function', target pc + 2, rest, storeSlot v n locals'⟩
    let loaded : Frame := ⟨function', target pc + 3, v :: rest, storeSlot v n locals'⟩
    have hfirst : (s.withFrames (⟨function', target pc + 1, v :: rest, locals'⟩ :: callers')).Next c'
        (s.withFrames (stored :: callers')) :=
      ⟨_, callers', .store n, next?_eq_some_iff.mpr ⟨rfl, hstore⟩, rfl⟩
    have hsecond : (s.withFrames (stored :: callers')).Next c' (s.withFrames (loaded :: callers')) := by
      refine ⟨stored, callers', .load n, next?_eq_some_iff.mpr ⟨rfl, hload⟩, ?_⟩
      simp only [step, exec, stored, getElem?_storeSlot, if_true]
      rfl
    have hmirrors : Mirrors slot target ⟨function, pc + 1, v :: rest, locals⟩ loaded :=
      ⟨hfunction, hnext.symm, rfl, hlocals.detour hfree v⟩
    exact ⟨2, _, .next hfirst (.single hsecond), reflects_withFrames (.cons ⟨slot, target, hmirrors⟩ hcallers) s⟩

/-- Two instructions lead to related states, or fail in the same way and leave the same behind apart from the frames. -/
inductive Alike (R : State → State → Prop) : Outcome → Outcome → Prop where
  | running {u u' : State} (h : R u u') : Alike R (.running u) (.running u')
  | faulted (fault : Fault) (u : State) (frames : List Frame) :
      Alike R (.faulted fault u) (.faulted fault (u.withFrames frames))

theorem apply_pushes {o : Operation} {heap : Heap} {stack stack' : Operands} {change : Option Change}
    (hpushes : (Instr.op o).pushes = true) (happly : o.apply heap stack = .ok (stack', change)) : stack' ≠ [] := by
  cases o with
  | getField field =>
    simp only [Operation.apply, Except.bind_eq_ok_iff, Except.pure_eq_ok_iff, Prod.mk.injEq] at happly
    obtain ⟨_, -, _, -, rfl, -⟩ := happly
    exact List.cons_ne_nil _ _
  | getIndex =>
    simp only [Operation.apply, Except.bind_eq_ok_iff, Except.pure_eq_ok_iff, Prod.mk.injEq] at happly
    obtain ⟨_, -, _, -, _, -, rfl, -⟩ := happly
    exact List.cons_ne_nil _ _
  | getCell =>
    simp only [Operation.apply, Except.bind_eq_ok_iff, Except.pure_eq_ok_iff, Prod.mk.injEq] at happly
    obtain ⟨_, -, _, -, _, -, _, -, rfl, -⟩ := happly
    exact List.cons_ne_nil _ _
  | _ => cases hpushes

theorem mirrorsAll_deliver (h : MirrorsAll callers callers') (v : Value) :
    MirrorsAll (deliver v callers) (deliver v callers') := by
  cases h with
  | nil => exact .nil
  | cons hf hrest =>
    obtain ⟨slot, target, hf⟩ := hf
    exact .cons ⟨slot, target, hf.function, hf.pc, congrArg (v :: ·) hf.stack, hf.locals⟩ hrest

theorem change_withFrames (s : State) (frames : List Frame) (change : Option Change) :
    (s.withFrames frames).change change = (s.change change).withFrames frames := by
  cases change <;> rfl

theorem call_alike (hchunk : Mirrored c c') (hf : Mirrors slot target f f') (hcallers : MirrorsAll callers callers')
    (name : String) (s : State) (frames : List Frame) :
    Alike (Leads c') (s.call c f callers name) ((s.withFrames frames).call c' f' callers' name) := by
  have hcallees := hchunk name
  simp only [State.call]
  generalize c.get? name = callee at hcallees ⊢
  generalize c'.get? name = callee' at hcallees ⊢
  cases hcallees with
  | none => exact .faulted (.unknownFunction name) s frames
  | @some h h' hcallee =>
    obtain ⟨slot', target', hcallee⟩ := hcallee
    dsimp only
    rw [hcallee.arity, hf.stack]
    split
    · exact .faulted _ s frames
    · have hcalled : Mirrors slot' target' { function := h, stack := (f.stack.take h.arity).reverse }
          { function := h', stack := (f.stack.take h.arity).reverse } := ⟨hcallee, hcallee.start.symm, rfl, .nil slot'⟩
      have hcaller : Mirrors slot target { f with stack := f.stack.drop h.arity }
          { f' with stack := f.stack.drop h.arity } := ⟨hf.function, hf.pc, rfl, hf.locals⟩
      exact .running (hcalled.leads (.cons ⟨slot, target, hcaller⟩ hcallers) s)

/-- One step of a frame and one step of its counterpart. A slot that is loaded must have been set. -/
theorem step_alike (hchunk : Mirrored c c') (hf : Mirrors slot target f f') (hcallers : MirrorsAll callers callers')
    (hi : f.function.code[f.pc]? = some i) (hset : ∀ k, i = .load k → k < f.locals.length) (s : State)
    (frames : List Frame) :
    Alike (Leads c') (s.step c f callers i)
      ((s.withFrames frames).step c' f' callers' (i.rename slot target)) := by
  have honward := hf.function.onward f.pc i hi
  obtain ⟨function, pc, stack, locals⟩ := f
  obtain ⟨function', pc', stack', locals'⟩ := f'
  obtain ⟨hfunction, hpc, hstack, hlocals⟩ := hf
  dsimp only at hfunction hpc hstack hlocals honward hset
  obtain rfl := hpc
  obtain rfl := hstack.symm
  -- Control goes on behind the instruction with other operands and slots, or jumps.
  have hleads : ∀ (s : State) (stack : Operands) (locals locals' : List Value), (i.pushes = true → stack ≠ []) →
      Copies slot locals locals' → Leads c' (s.withFrames (⟨function, pc + 1, stack, locals⟩ :: callers))
        (s.withFrames (⟨function', target pc + 1, stack, locals'⟩ :: callers')) :=
    fun s stack locals locals' hvalue hcopies => honward.leads hfunction hvalue hcopies hcallers s
  have hmirrors : ∀ n stack, Mirrors slot target ⟨function, n, stack, locals⟩ ⟨function', target n, stack, locals'⟩ :=
    fun n stack => ⟨hfunction, rfl, rfl, hlocals⟩
  unfold step
  cases i with
  | op o =>
    have hheap : (s.withFrames frames).heap = s.heap := rfl
    simp only [Instr.rename, exec, hheap]
    cases happly : o.apply s.heap stack with
    | error fault => exact .faulted fault s frames
    | ok r =>
      refine .running ?_
      rw [change_withFrames, change_withFrames, change_withFrames]
      exact hleads (s.change r.2) r.1 locals locals' (fun hp => apply_pushes hp happly) hlocals
  | load k =>
    have hk := hset k rfl
    simp only [Instr.rename, exec, hlocals.get hk, List.getElem?_eq_getElem hk]
    exact .running (hleads s _ locals locals' (fun _ => List.cons_ne_nil _ _) hlocals)
  | store k =>
    simp only [Instr.rename, exec]
    cases stack.pop with
    | error fault => exact .faulted fault s frames
    | ok r => exact .running (hleads s r.2 _ _ (by rintro ⟨⟩) (hlocals.store hfunction.slots r.1 k))
  | jump n => exact .running ((hmirrors n stack).leads hcallers s)
  | jumpUnless n =>
    simp only [Instr.rename, exec]
    cases stack.popBool with
    | error fault => exact .faulted fault s frames
    | ok r =>
      obtain ⟨b, rest⟩ := r
      cases b with
      | true => exact .running (hleads s rest locals locals' (by rintro ⟨⟩) hlocals)
      | false => exact .running ((hmirrors n rest).leads hcallers s)
  | call name =>
    have hnext : target (pc + 1) = target pc + 1 := by
      cases honward with
      | direct hnext => exact hnext
      | detour hpushes => cases hpushes
    have hcaller := hmirrors (pc + 1) stack
    rw [hnext] at hcaller
    exact call_alike hchunk hcaller hcallers name s frames
  | ret =>
    simp only [Instr.rename, exec, leave_eq]
    exact .running (reflects_withFrames (mirrorsAll_deliver hcallers _) s).leads
  | write =>
    simp only [Instr.rename, exec]
    cases stack.pop with
    | error fault => exact .faulted fault s frames
    | ok r =>
      have houtput : (s.withFrames frames).output = s.output := rfl
      dsimp only
      rw [houtput]
      cases hwrite : s.output.write r.1.text with
      | mk result output =>
        cases result with
        | error reason => exact .faulted (.writeFailed reason) { s with output := output } frames
        | ok u => exact .running (hleads { s with output := output } r.2 locals locals' (by rintro ⟨⟩) hlocals)
  | read =>
    have hinput : (s.withFrames frames).input = s.input := rfl
    simp only [Instr.rename, exec, hinput]
    cases hread : s.input.readLine with
    | mk result input =>
      cases result with
      | error reason => exact .faulted (.readFailed reason) { s with input := input } frames
      | ok line => exact .running (hleads { s with input := input } _ locals locals' (by rintro ⟨⟩) hlocals)

end

/-! ### Runs -/

/-- Whatever slot a run from a state comes to load has been set. -/
def LoadsSet (c : Chunk) (s : State) : Prop :=
  ∀ t f callers k, Reaches c s t → t.next? = some (f, callers, .load k) → k < f.locals.length

theorem LoadsSet.next {c : Chunk} {s t : State} (h : LoadsSet c s) (hnext : s.Next c t) : LoadsSet c t :=
  fun u f callers k hreaches => h u f callers k ((Reaches.single hnext).trans hreaches)

namespace Reflects
variable {c c' : Chunk} {s s' t : State}

/-- The next instruction of a run and that of the run that reflects it. -/
theorem step_alike (h : Reflects s s') (hchunk : Mirrored c c') (hset : LoadsSet c s) {f : Frame} {callers : List Frame}
    {i : Instr} (hnext : s.next? = some (f, callers, i)) :
    ∃ f' callers' i', s'.next? = some (f', callers', i') ∧ f'.function.name = f.function.name ∧
      Alike (Leads c') (s.step c f callers i) (s'.step c' f' callers' i') := by
  obtain ⟨hframes, hi⟩ := next?_eq_some_iff.mp hnext
  have hall := h.frames
  rw [hframes] at hall
  generalize hframes' : s'.frames = frames' at hall
  cases hall with
  | @cons _ f' _ callers' hf hcallers =>
    obtain ⟨slot, target, hf⟩ := hf
    have hloads : ∀ k, i = .load k → k < f.locals.length := by
      rintro k rfl
      exact hset s f callers k (.refl s) hnext
    refine ⟨f', callers', i.rename slot target, next?_eq_some_iff.mpr ⟨hframes', ?_⟩, hf.function.name, ?_⟩
    · rw [hf.pc, hf.function.code, hi]
      rfl
    · have halike := Correctness.step_alike hchunk hf hcallers hi hloads s s'.frames
      rwa [← h.rest] at halike

theorem next?_none (h : Reflects s s') (hnext : s.next? = none) : s'.next? = none := by
  have hall := h.frames
  unfold State.next? at hnext ⊢
  generalize s.frames = frames at hall hnext
  generalize s'.frames = frames' at hall
  cases hall with
  | nil => rfl
  | @cons f f' _ _ hf _ =>
    obtain ⟨slot, target, hf⟩ := hf
    have hend : f.function.code[f.pc]? = none := Option.map_eq_none_iff.mp hnext
    simp only [hf.pc, hf.function.code, hend, Option.map_none]

/-- One step of a run takes one step or more of the run that reflects it. -/
theorem next (h : Reflects s s') (hchunk : Mirrored c c') (hset : LoadsSet c s) (hnext : s.Next c t) :
    ∃ n t', Steps c' (n + 1) s' t' ∧ Reflects t t' := by
  obtain ⟨f, callers, i, hnext, hstep⟩ := hnext
  obtain ⟨f', callers', i', hnext', -, halike⟩ := h.step_alike hchunk hset hnext
  rw [hstep] at halike
  generalize hstep' : s'.step c' f' callers' i' = outcome at halike
  cases halike with
  | running hleads =>
    obtain ⟨n, t', hsteps, hreflects⟩ := hleads
    exact ⟨n, t', .next ⟨f', callers', i', hnext', hstep'⟩ hsteps, hreflects⟩

/-- Where a run fails, the run that reflects it fails with the same fault in the same function. -/
theorem fails (h : Reflects s s') (hchunk : Mirrored c c') (hset : LoadsSet c s) {failure : Failure}
    (hfails : s.Fails c failure t) :
    ∃ failure' frames, s'.Fails c' failure' (t.withFrames frames) ∧ failure'.fault = failure.fault ∧
      failure'.site.map Site.function = failure.site.map Site.function := by
  obtain ⟨f, callers, i, hnext, hstep, hsite⟩ := hfails
  obtain ⟨f', callers', i', hnext', hname, halike⟩ := h.step_alike hchunk hset hnext
  rw [hstep] at halike
  generalize hstep' : s'.step c' f' callers' i' = outcome at halike
  cases halike with
  | faulted fault u frames =>
    refine ⟨⟨failure.fault, some (f'.site i')⟩, frames, ⟨f', callers', i', hnext', hstep', rfl⟩, rfl, ?_⟩
    rw [hsite]
    exact congrArg some hname

/-- A run takes no fewer steps than the run that it reflects. -/
theorem steps (h : Reflects s s') (hchunk : Mirrored c c') (hset : LoadsSet c s) {n : Nat} (hsteps : Steps c n s t) :
    ∃ n' t', n ≤ n' ∧ Steps c' n' s' t' ∧ Reflects t t' ∧ LoadsSet c t := by
  induction hsteps generalizing s' with
  | refl s => exact ⟨0, s', Nat.le_refl 0, .refl s', h, hset⟩
  | next hnext _ ih =>
    obtain ⟨k, u', hfirst, hu⟩ := h.next hchunk hset hnext
    obtain ⟨n', t', hle, hrest, ht⟩ := ih hu (hset.next hnext)
    exact ⟨k + 1 + n', t', by omega, hfirst.trans hrest, ht⟩

end Reflects

/-! ### What a run shows -/

section
variable {c c' : Chunk} {m : Machine}

/-- A run that uses up its bound has taken as many steps. -/
theorem steps_of_run?_none {settings : Settings} {bound : Nat} {s : State} {d : Diagnostics}
    (h : State.run? c settings bound s d = none) : ∃ t, Steps c bound s t := by
  induction bound generalizing s d with
  | zero => exact ⟨s, .refl s⟩
  | succ bound ih =>
    unfold State.run? at h
    cases hn : s.next? with
    | none =>
      rw [hn] at h
      cases h
    | some next =>
      obtain ⟨f, callers, i⟩ := next
      simp only [hn] at h
      cases hs : s.step c f callers i with
      | running t =>
        rw [hs] at h
        obtain ⟨u, hu⟩ := ih h
        exact ⟨u, .next ⟨f, callers, i, hn, hs⟩ hu⟩
      | faulted fault t =>
        rw [hs] at h
        cases h

theorem entryPoint?_mirrored (hchunk : Mirrored c c') :
    (Machine.entryPoint? c = none ∧ Machine.entryPoint? c' = none) ∨
      ∃ main main', Machine.entryPoint? c = some main ∧ Machine.entryPoint? c' = some main' ∧ Counterparts main main' := by
  have hmain := hchunk "main"
  unfold Machine.entryPoint?
  generalize c.get? "main" = main at hmain ⊢
  generalize c'.get? "main" = main' at hmain ⊢
  cases hmain with
  | none => exact Or.inl ⟨rfl, rfl⟩
  | @some h h' hcounterparts =>
    obtain ⟨slot, target, hcounterpart⟩ := hcounterparts
    simp only [Option.filter, hcounterpart.arity]
    split
    · exact Or.inr ⟨h, h', rfl, rfl, slot, target, hcounterpart⟩
    · exact Or.inl ⟨rfl, rfl⟩

/-- What a machine shows in the end depends on the result and on the world that the run leaves behind. -/
theorem runReport_finish {e e' : Ending} (frames : List Frame) (hstate : e'.state = e.state.withFrames frames)
    (hresult : e'.result.mapError (fun failure => (failure.fault, failure.site.map Site.function)) =
      e.result.mapError fun failure => (failure.fault, failure.site.map Site.function)) :
    runReport (m.finish e') = runReport (m.finish e) := by
  obtain ⟨result, state, d⟩ := e
  obtain ⟨result', state', d'⟩ := e'
  dsimp only at hstate hresult
  subst hstate
  cases result with
  | error failure =>
    cases result' with
    | ok u => cases hresult
    | error failure' => simp only [Machine.finish, runReport, hresult, machineWorld, Machine.resume, State.withFrames]
  | ok u =>
    cases result' with
    | error failure' => cases hresult
    | ok u' =>
      simp only [Machine.finish, State.withFrames]
      cases state.output.flush <;> rfl

theorem reflects_start {main main' : Function} (h : Counterparts main main') (m : Machine) :
    Reflects (m.start main) (m.start main') := by
  obtain ⟨slot, target, h⟩ := h
  exact ⟨.cons ⟨slot, target, h, h.start.symm, rfl, .nil slot⟩ .nil, rfl⟩

/-- A run that ends is reflected by one that shows the same. -/
theorem run_reflected (hchunk : Mirrored c c')
    (hset : ∀ main, Machine.entryPoint? c = some main → LoadsSet c (m.start main)) {bound : Nat}
    {r : Except Failure Unit × Machine} (hrun : m.run? c bound = some r) :
    ∃ bound' r', m.run? c' bound' = some r' ∧ runReport r' = runReport r := by
  rcases entryPoint?_mirrored hchunk with ⟨hmain, hmain'⟩ | ⟨main, main', hmain, hmain', hcounterparts⟩
  · simp only [Machine.run?, hmain, Option.some.injEq] at hrun
    exact ⟨0, r, by simp only [Machine.run?, hmain', hrun], rfl⟩
  · simp only [Machine.run?, hmain, Option.map_eq_some_iff] at hrun
    obtain ⟨e, he, rfl⟩ := hrun
    obtain ⟨n, t, -, hsteps, hend⟩ := State.run?_eq_some he
    obtain ⟨n', t', -, hsteps', ht, hloads⟩ := (reflects_start hcounterparts m).steps hchunk (hset main hmain) hsteps
    rcases hend with ⟨hnext, hresult, hstate⟩ | ⟨failure, hfails, hresult⟩
    · obtain ⟨d, hrun'⟩ := State.run?_end m.settings hsteps' (ht.next?_none hnext) m.diagnostics
      refine ⟨n' + 1, m.finish ⟨.ok (), t', d⟩, by simp only [Machine.run?, hmain', hrun', Option.map_some], ?_⟩
      exact runReport_finish t'.frames (hstate ▸ ht.rest) (by rw [hresult])
    · obtain ⟨failure', frames, hfails', hfault, hsite⟩ := ht.fails hchunk hloads hfails
      obtain ⟨d, hrun'⟩ := State.run?_fails m.settings hsteps' hfails' m.diagnostics
      refine ⟨n' + 1, m.finish ⟨.error failure', e.state.withFrames frames, d⟩,
        by simp only [Machine.run?, hmain', hrun', Option.map_some], ?_⟩
      exact runReport_finish frames rfl (by simp only [hresult, Except.mapError, hfault, hsite])

/-- A run that does not end within a bound is reflected by none that does. -/
theorem run_unfinished_reflected (hchunk : Mirrored c c')
    (hset : ∀ main, Machine.entryPoint? c = some main → LoadsSet c (m.start main)) {bound : Nat}
    (hrun : m.run? c bound = none) : m.run? c' bound = none := by
  rcases entryPoint?_mirrored hchunk with ⟨hmain, -⟩ | ⟨main, main', hmain, hmain', hcounterparts⟩
  · simp only [Machine.run?, hmain] at hrun
    cases hrun
  · simp only [Machine.run?, hmain, Option.map_eq_none_iff] at hrun
    obtain ⟨t, ht⟩ := steps_of_run?_none hrun
    obtain ⟨n', t', hle, hsteps', -⟩ := (reflects_start hcounterparts m).steps hchunk (hset main hmain) ht
    obtain ⟨u, hu⟩ := hsteps'.prior hle
    simp only [Machine.run?, hmain', State.run?_eq_none m.settings hu, Option.map_none]

/-- Runs of a chunk and of one with the counterparts of its functions show the same, and the one ends if the other does. -/
theorem reports_mirrored (hchunk : Mirrored c c')
    (hset : ∀ main, Machine.entryPoint? c = some main → LoadsSet c (m.start main)) (report : Report) :
    (∃ bound, (m.run? c bound).map runReport = some report) ↔
      ∃ bound, (m.run? c' bound).map runReport = some report := by
  constructor
  · rintro ⟨bound, hrun⟩
    obtain ⟨r, hr, rfl⟩ := Option.map_eq_some_iff.mp hrun
    obtain ⟨bound', r', hr', hreport⟩ := run_reflected hchunk hset hr
    exact ⟨bound', by rw [hr', Option.map_some, hreport]⟩
  · rintro ⟨bound, hrun⟩
    obtain ⟨r', hr', rfl⟩ := Option.map_eq_some_iff.mp hrun
    cases hr : m.run? c bound with
    | none =>
      rw [run_unfinished_reflected hchunk hset hr] at hr'
      cases hr'
    | some r =>
      -- Two runs of the second chunk end in the same way under any bounds.
      obtain ⟨bound', r'', hr'', hreport⟩ := run_reflected hchunk hset hr
      have hmax := Machine.run?_of_le hr' (Nat.le_max_left bound bound')
      rw [Machine.run?_of_le hr'' (Nat.le_max_right bound bound')] at hmax
      obtain rfl := Option.some.inj hmax
      exact ⟨bound, by rw [hr, Option.map_some, hreport]⟩

end

end Bytecode.Correctness
