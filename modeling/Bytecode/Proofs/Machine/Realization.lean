import Bytecode.Proofs.Heap.Refinement
import Bytecode.Proofs.Machine.Early
import Bytecode.Proofs.Machine.Streams

/-! The machine that works in place does what the machine does. As long as the numbers of objects are not used up, its tables
    represent the heap, its frames and streams are the same, every instruction succeeds on both or fails on both with the same
    fault (`Engine.Realizes.step`), and so the runs have the same course and the same result (`Engine.Shares.run?`). -/

namespace Bytecode

/-- Taking an operand is taking the top one and asking for what is needed. -/
structure Operands.Takes {α : Type} (take : Operands → Except Fault (α × Operands)) (need : Value → Except Fault α) :
    Prop where
  nil : take [] = .error .underflow
  cons : ∀ v rest, take (v :: rest) = need v >>= fun a => pure (a, rest)

namespace Operands

theorem takes_pop : Takes pop .ok := ⟨rfl, fun _ _ => rfl⟩

theorem takes_popPresent : Takes popPresent Value.needPresent := ⟨rfl, popPresent_cons⟩

theorem takes_popInt : Takes popInt Value.needInt := ⟨rfl, popInt_cons⟩

theorem takes_popBool : Takes popBool Value.needBool := ⟨rfl, popBool_cons⟩

theorem takes_popString : Takes popString Value.needString := ⟨rfl, popString_cons⟩

theorem takes_popObject : Takes popObject Value.needObject := ⟨rfl, popObject_cons⟩

end Operands

namespace Exec
open Operands

/-- An operation in place ends as it does on the heap: with the same operands and with tables for the changed heap, or with the
same fault. -/
def Follows (h : Heap) (l : Live) (x : EStateM.Result Fault Live Unit) : Except Fault (Operands × Option Change) → Prop
  | .ok (stack, change) =>
    ∃ store, x = .ok () { l.withStack stack with store := store } ∧ store.Represents (change.elim h h.apply)
  | .error fault => ∃ l', x = .error fault l'

namespace Follows
variable {α γ : Type} {h : Heap} {l : Live} {stack : Operands} {next : α → Exec Unit}

theorem bind {act : Exec α} {l₀ : Live} {x : Except Fault γ} {k : γ → Except Fault (Operands × Option Change)}
    (hfault : ∀ fault, x = .error fault → ∃ l', act l₀ = .error fault l')
    (hok : ∀ g, x = .ok g → ∃ a l', act l₀ = .ok a l' ∧ Follows h l (next a l') (k g)) :
    Follows h l ((act >>= next) l₀) (x >>= k) := by
  cases x with
  | error fault =>
    obtain ⟨l', hact⟩ := hfault fault rfl
    exact ⟨l', EStateM.bind_of_error hact⟩
  | ok g =>
    obtain ⟨a, l', hact, hnext⟩ := hok g rfl
    rw [EStateM.bind_of_ok hact]
    exact hnext

/-- A check fails on both sides or goes on with the same value. -/
theorem check {x : Except Fault α} {k : α → Except Fault (Operands × Option Change)} {l₀ : Live}
    (hnext : ∀ a, Follows h l (next a l₀) (k a)) : Follows h l ((ofExcept x >>= next) l₀) (x >>= k) := by
  refine bind (fun fault hfault => ⟨l₀, ?_⟩) fun a ha => ⟨a, l₀, ?_, hnext a⟩
  · rw [hfault]
    rfl
  · rw [ha]
    rfl

/-- An operand is taken from the top and checked, on both sides. -/
theorem pop {take : Operands → Except Fault (α × Operands)} {need : Value → Except Fault α} (htakes : Takes take need)
    {k : α × Operands → Except Fault (Operands × Option Change)}
    (hnext : ∀ a rest, Follows h l (next a (l.withStack rest)) (k (a, rest))) :
    Follows h l ((popAs need >>= next) (l.withStack stack)) (take stack >>= k) := by
  cases stack with
  | nil =>
    rw [htakes.nil]
    exact ⟨_, rfl⟩
  | cons v rest =>
    -- With the value gone from the operands, what is left of the pop is the check.
    rw [htakes.cons, bind_assoc]
    exact check fun a => hnext a rest

section
variable (hrep : l.store.Represents h)
include hrep

theorem push (v : Value) : Follows h l (Exec.push v (l.withStack stack)) (.ok (v :: stack, none)) :=
  ⟨l.store, rfl, hrep⟩

theorem reads {act : Store.Action α} {x : Except Fault α} (hact : act l.store = Store.reads x l.store)
    (result : α → Value) :
    Follows h l ((onStore act >>= fun a => Exec.push (result a)) (l.withStack stack))
      (x >>= fun a => pure (result a :: stack, none)) := by
  have hstore : act (l.withStack stack).store = _ := hact
  refine bind (fun fault hfault => ⟨l.withStack stack, ?_⟩) fun a ha => ⟨a, l.withStack stack, ?_, push hrep (result a)⟩
  · rw [onStore, hstore, hfault]
    rfl
  · rw [onStore, hstore, ha]
    rfl

theorem makes (hfew : h.objectCount < 2 ^ 64) {act : Store.Action Unit} {x : Except Fault Change}
    (hact : act l.store = Store.makes x l.store) (hshort : ∀ c, x = .ok c → c.Short) :
    Follows h l (onStore act (l.withStack stack)) (x >>= fun c => pure (stack, some c)) := by
  have hstore : act (l.withStack stack).store = _ := hact
  rw [onStore, hstore]
  cases x with
  | error fault => exact ⟨_, rfl⟩
  | ok c => exact ⟨l.store.apply c, rfl, hrep.apply hfew (hshort c rfl)⟩

theorem creates (hfew : h.objectCount < 2 ^ 64) {act : Store.Action Int64} {x : Except Fault Change}
    (hact : act l.store = Store.known ((fun c => (h.nextId, some c)) <$> x) l.store) (hshort : ∀ c, x = .ok c → c.Short) :
    Follows h l ((onStore act >>= fun id => Exec.push (.object id)) (l.withStack stack))
      (x >>= fun c => pure (.object h.nextId :: stack, some c)) := by
  have hstore : act (l.withStack stack).store = _ := hact
  cases x with
  | error fault => exact bind (fun fault' hfault => ⟨l.withStack stack, by cases hfault; rw [onStore, hstore]; rfl⟩) nofun
  | ok c =>
    refine bind nofun fun c' hc => ⟨h.nextId, { l.withStack stack with store := l.store.apply c' }, ?_, ?_⟩
    · cases hc
      rw [onStore, hstore]
      rfl
    · exact ⟨l.store.apply c', rfl, hrep.apply hfew (hshort c' hc)⟩

end
end Follows

/-- An operation does in place what it does to the operands and the heap. -/
theorem follows_operate {h : Heap} {l : Live} (hrep : l.store.Represents h) (hfew : h.objectCount < 2 ^ 64)
    (stack : Operands) (o : Operation) :
    Follows h l (operate h.refuses o (l.withStack stack)) (o.apply h stack) := by
  cases o with
  | push v => exact .push hrep v
  | pop => exact .pop takes_pop fun _ _ => ⟨l.store, rfl, hrep⟩
  | dup =>
    cases stack with
    | nil => exact ⟨_, rfl⟩
    | cons v rest => exact .push hrep v
  | nop => exact ⟨l.store, rfl, hrep⟩
  | arith op =>
    exact .pop takes_popPresent fun _ _ => .pop takes_popPresent fun _ _ => .check fun v => .push hrep v
  | and | or => exact .pop takes_popBool fun _ _ => .pop takes_popBool fun _ _ => .push hrep _
  | not => exact .pop takes_popBool fun _ _ => .push hrep _
  | order op =>
    exact .pop takes_popPresent fun _ _ => .pop takes_popPresent fun _ _ => .check fun _ => .push hrep _
  | equal | differ => exact .pop takes_pop fun _ _ => .pop takes_pop fun _ _ => .push hrep _
  | textLength => exact .pop takes_popString fun _ _ => .push hrep _
  | charAt => exact .pop takes_popString fun _ _ => .pop takes_popInt fun _ _ => .check fun _ => .push hrep _
  | concat => exact .pop takes_popString fun _ _ => .pop takes_popString fun _ _ => .push hrep _
  | toInt | toDouble | toText => exact .pop takes_popPresent fun _ _ => .check fun _ => .push hrep _
  | newStruct =>
    -- The next id of the tables is that of the heap, so the new struct gets the same one.
    have hact : Store.newStruct l.store =
        Store.known ((fun c => (h.nextId, some c)) <$> (.ok Heap.newStruct : Except Fault Change)) l.store := by
      rw [← hrep.next]
      rfl
    exact .creates hrep hfew hact fun c hc => by cases hc; exact Change.short_newStruct
  | addField field =>
    exact .pop takes_popObject fun id _ => .makes hrep hfew (hrep.setField id field .null) fun _ => Change.short_setField
  | setField field =>
    exact .pop takes_pop fun v _ => .pop takes_popObject fun id _ =>
      .makes hrep hfew (hrep.setField id field v) fun _ => Change.short_setField
  | getField field => exact .pop takes_popObject fun id _ => .reads hrep (hrep.getField id field) _
  | newArray =>
    exact .pop takes_pop fun fill _ => .pop takes_popInt fun length _ =>
      .creates hrep hfew (hrep.newArray length fill) fun _ => Change.short_newArray
  | arrayLength => exact .pop takes_popObject fun id _ => .reads hrep (hrep.arrayLength id) _
  | setIndex =>
    exact .pop takes_pop fun v _ => .pop takes_popInt fun index _ => .pop takes_popObject fun id _ =>
      .makes hrep hfew (hrep.setIndex id index v) fun _ => Change.short_setIndex
  | getIndex =>
    exact .pop takes_popInt fun index _ => .pop takes_popObject fun id _ => .reads hrep (hrep.getIndex id index) _
  | newGrid =>
    exact .pop takes_pop fun fill _ => .pop takes_popInt fun rows _ => .pop takes_popInt fun columns _ =>
      .creates hrep hfew (hrep.newGrid rows columns fill) fun _ => Change.short_newGrid
  | setCell =>
    exact .pop takes_pop fun v _ => .pop takes_popInt fun column _ => .pop takes_popInt fun row _ =>
      .pop takes_popObject fun id _ => .makes hrep hfew (hrep.setCell id row column v) fun _ => Change.short_setCell
  | getCell =>
    exact .pop takes_popInt fun column _ => .pop takes_popInt fun row _ => .pop takes_popObject fun id _ =>
      .reads hrep (hrep.getCell id row column) _

end Exec

namespace Engine
open Exec

/-- The tables of an engine represent a heap, and its streams are the given ones. -/
structure Shares (e : Engine) (heap : Heap) (input : Input) (output : Output) : Prop where
  store : e.store.Represents heap
  refuses : e.refuses = heap.refuses
  input : e.input = input
  output : e.output = output

/-- An engine is in a state of the machine. -/
structure Realizes (e : Engine) (s : State) : Prop where
  frames : e.frames = s.frames
  shares : e.Shares s.heap s.input s.output

/-- An instruction in place ends as on the machine: in the same state, or with the same fault and the same left behind. -/
def Ends (r : Except Fault Unit × Engine) : Outcome → Prop
  | .running s => r.1 = .ok () ∧ r.2.Realizes s
  | .faulted fault s => r.1 = .error fault ∧ r.2.Shares s.heap s.input s.output

variable {e e' : Engine} {c : Chunk} {s t : State} {f : Frame} {callers : List Frame} {i : Instr}

theorem Realizes.next? (h : e.Realizes s) : e.next? = s.next? := by
  unfold Engine.next? State.next?
  rw [h.frames]

/-- An operation in place ends as on the machine. -/
theorem Realizes.step_op (h : e.Realizes s) (hfew : s.heap.objectCount < 2 ^ 64) (o : Operation) :
    Ends (e.step c f callers (.op o)) (s.step c f callers (.op o)) := by
  obtain ⟨-, hstore, hrefuses, hinput, houtput⟩ := h
  have hfollows := follows_operate (l := e.live f) hstore hfew f.stack o
  rw [← hrefuses] at hfollows
  simp only [State.step, State.exec]
  cases hr : o.apply s.heap f.stack with
  | ok r =>
    obtain ⟨stack, change⟩ := r
    rw [hr] at hfollows
    obtain ⟨store, hx, hrep⟩ := hfollows
    rw [step_of_next (EStateM.bind_of_ok hx)]
    cases change with
    | none => exact ⟨rfl, rfl, hrep, hrefuses, hinput, houtput⟩
    | some change => exact ⟨rfl, rfl, hrep, hrefuses.trans (Heap.refuses_apply s.heap change).symm, hinput, houtput⟩
  | error fault =>
    rw [hr] at hfollows
    obtain ⟨l, hx⟩ := hfollows
    have hexec : execute e.refuses c (.op o) (e.live f) = .error fault l := EStateM.bind_of_error hx
    rw [step_of_error hexec]
    -- The tables are still those of the start, since operations fail early.
    have hkept : l.store = e.store := failsEarly_execute e.refuses c (.op o) _ _ _ hexec
    rw [← hkept] at hstore
    have hstreams := (orderly_operate e.refuses o).streams (e.live f)
    rw [show operate e.refuses o (e.live f) = .error fault l from hx] at hstreams
    obtain ⟨hin, hout⟩ := Prod.mk.inj hstreams
    exact ⟨rfl, hstore, hrefuses, hin.trans hinput, hout.trans houtput⟩

/-- An instruction that does not touch the tables and the streams leaves them to be shared. -/
theorem Shares.resume {heap : Heap} {input : Input} {output : Output} (h : e.Shares heap input output) {l : Live}
    (hl : l.shared = (e.store, e.input, e.output)) (frames : List Frame) :
    (e.resume l frames).Shares heap input output := by
  obtain ⟨hstore, hstreams⟩ := Prod.mk.inj hl
  obtain ⟨hinput, houtput⟩ := Prod.mk.inj hstreams
  rw [Engine.resume, hstore, hinput, houtput]
  exact ⟨h.store, h.refuses, h.input, h.output⟩

theorem Realizes.step_load (h : e.Realizes s) (slot : Nat) :
    Ends (e.step c f callers (.load slot)) (s.step c f callers (.load slot)) := by
  simp only [State.step, State.exec]
  cases hslot : f.locals[slot]? with
  | none =>
    have hx : execute e.refuses c (.load slot) (e.live f) = .error (.unsetSlot slot) (e.live f) := by
      refine (EStateM.bind_of_ok rfl).trans ?_
      rw [show (e.live f).frame.locals[slot]? = _ from hslot]
      rfl
    rw [step_of_error hx]
    exact ⟨rfl, h.shares.resume rfl _⟩
  | some v =>
    have hx : execute e.refuses c (.load slot) (e.live f) = .ok .next ((e.live f).withStack (v :: f.stack)) := by
      refine (EStateM.bind_of_ok rfl).trans ?_
      rw [show (e.live f).frame.locals[slot]? = _ from hslot]
      rfl
    rw [step_of_next hx]
    exact ⟨rfl, rfl, h.shares.resume rfl _⟩

/-- A call leaves the operands alone if it fails. -/
theorem Realizes.step_call (h : e.Realizes s) (name : String) :
    Ends (e.step c f callers (.call name)) (s.step c f callers (.call name)) := by
  simp only [State.step, State.exec, State.call]
  cases hget : c.get? name with
  | none =>
    have hx : execute e.refuses c (.call name) (e.live f) = .error (.unknownFunction name) (e.live f) := by
      simp only [execute, hget]
      rfl
    rw [step_of_error hx]
    exact ⟨rfl, h.shares.resume rfl _⟩
  | some g =>
    have hx : execute e.refuses c (.call name) (e.live f) =
        (if f.stack.length < g.arity then throw (.missingArguments name g.arity f.stack.length)
          else do
            modify (·.withStack (f.stack.drop g.arity))
            return .call { function := g, stack := (f.stack.take g.arity).reverse } : Exec Control) (e.live f) := by
      simp only [execute, hget]
      rfl
    dsimp only
    by_cases hlt : f.stack.length < g.arity
    · rw [if_pos hlt] at hx ⊢
      rw [step_of_error hx]
      exact ⟨rfl, h.shares.resume rfl _⟩
    · rw [if_neg hlt] at hx ⊢
      rw [Engine.step, hx]
      exact ⟨rfl, rfl, h.shares.resume rfl _⟩

theorem Realizes.step_write (h : e.Realizes s) : Ends (e.step c f callers .write) (s.step c f callers .write) := by
  obtain ⟨-, hstore, hrefuses, hinput, houtput⟩ := id h
  cases hstack : f.stack with
  | nil =>
    rw [Engine.step_write_nil hstack, State.step_write_nil hstack]
    exact ⟨rfl, h.shares.resume rfl _⟩
  | cons v rest =>
    rw [Engine.step_write hstack, State.step_write hstack, houtput]
    cases (s.output.write v.text).1 with
    | error reason => exact ⟨rfl, hstore, hrefuses, hinput, rfl⟩
    | ok u => exact ⟨rfl, rfl, hstore, hrefuses, hinput, rfl⟩

theorem Realizes.step_read (h : e.Realizes s) : Ends (e.step c f callers .read) (s.step c f callers .read) := by
  obtain ⟨-, hstore, hrefuses, hinput, houtput⟩ := id h
  rw [State.step_read]
  rcases hread : s.input.readLine with ⟨reason | line, input⟩
  · rw [Engine.step_read_error (hinput ▸ hread)]
    exact ⟨rfl, hstore, hrefuses, rfl, houtput⟩
  · rw [Engine.step_read_ok (hinput ▸ hread)]
    exact ⟨rfl, rfl, hstore, hrefuses, rfl, houtput⟩

/-- Every instruction in place ends as on the machine. -/
theorem Realizes.step (h : e.Realizes s) (hfew : s.heap.objectCount < 2 ^ 64) (c : Chunk) (f : Frame)
    (callers : List Frame) (i : Instr) : Ends (e.step c f callers i) (s.step c f callers i) := by
  cases i with
  | op o => exact h.step_op hfew o
  | load slot => exact h.step_load slot
  | store slot =>
    obtain ⟨function, pc, stack, locals⟩ := f
    cases stack with
    | nil => exact ⟨rfl, h.shares.resume rfl _⟩
    | cons v rest => exact ⟨rfl, rfl, h.shares.resume rfl _⟩
  | jump target => exact ⟨rfl, rfl, h.shares.resume rfl _⟩
  | jumpUnless target =>
    obtain ⟨function, pc, stack, locals⟩ := f
    cases stack with
    | nil => exact ⟨rfl, h.shares.resume rfl _⟩
    | cons v rest =>
      cases v with
      | bool b => cases b <;> exact ⟨rfl, rfl, h.shares.resume rfl _⟩
      | _ => exact ⟨rfl, h.shares.resume rfl _⟩
  | call name => exact h.step_call name
  | ret =>
    rw [State.step, State.exec, State.leave_eq]
    exact ⟨rfl, rfl, h.shares.resume rfl _⟩
  | write => exact h.step_write
  | read => exact h.step_read

/-- Instructions that are executed in place are executed by the machine. -/
theorem Realizes.trail {done : List Execution} (hdone : Trail (Engine.Does c) done e e') (h : e.Realizes s)
    (hfew : s.heap.objectCount + done.length < 2 ^ 64) : ∃ t, Trail (State.Does c) done s t ∧ e'.Realizes t := by
  induction hdone generalizing s with
  | refl e => exact ⟨s, .refl s, h⟩
  | @next x xs e _ _ first _ ih =>
    rw [List.length_cons] at hfew
    obtain ⟨hnext, hstep⟩ := first
    have hends := h.step (by omega) c x.1 x.2.1 x.2.2
    rw [h.next?] at hnext
    rw [hstep] at hends
    cases hs : s.step c x.1 x.2.1 x.2.2 with
    | faulted fault u =>
      rw [hs] at hends
      cases hends.1
    | running u =>
      rw [hs] at hends
      have hdoes : s.Does c x u := ⟨hnext, hs⟩
      have hcount := hdoes.next.objectCount_le
      obtain ⟨t, ht, hrealizes⟩ := ih hends.2 (by omega)
      exact ⟨t, .next hdoes ht, hrealizes⟩

/-- Runs that start alike end alike within every bound. -/
theorem Realizes.go? (h : e.Realizes s) (settings : Settings) {bound : Nat} (d : Diagnostics)
    (hfew : s.heap.objectCount + bound < 2 ^ 64) :
    Option.Rel (fun r x => x.result = r.1 ∧ r.2.Shares x.state.heap x.state.input x.state.output)
      (e.go? c bound) (s.run? c settings bound d) := by
  induction bound generalizing e s d with
  | zero => exact .none
  | succ bound ih =>
    simp only [Engine.go?, State.run?, h.next?]
    cases hnext : s.next? with
    | none => exact .some ⟨rfl, h.shares⟩
    | some x =>
      obtain ⟨f, callers, i⟩ := x
      have hends := h.step (by omega) c f callers i
      dsimp only
      generalize e.step c f callers i = r at hends ⊢
      obtain ⟨result, e'⟩ := r
      cases hs : s.step c f callers i with
      | running t =>
        rw [hs] at hends
        obtain ⟨rfl, hrealizes⟩ := hends
        -- A step allocates no more than one object, so the ids do not run out within the bound.
        have hcount := State.Next.objectCount_le ⟨f, callers, i, hnext, hs⟩
        exact ih hrealizes _ (by omega)
      | faulted fault t =>
        rw [hs] at hends
        obtain ⟨rfl, hshares⟩ := hends
        exact .some ⟨rfl, hshares⟩

variable {m : Machine}

/-- At the start there is one frame, and the heap and the streams are those of the machine. -/
theorem Shares.start (h : e.Shares m.heap m.input m.output) (main : Function) : (e.start main).Realizes (m.start main) :=
  ⟨rfl, h.store, h.refuses, h.input, h.output⟩

/-- The runs of a chunk have the same result, and leave the same behind. -/
theorem Shares.run? (h : e.Shares m.heap m.input m.output) {bound : Nat} (hfew : m.heap.objectCount + bound < 2 ^ 64) :
    Option.Rel (fun r x => x.1 = r.1 ∧ r.2.Shares x.2.heap x.2.input x.2.output) (e.run? c bound) (m.run? c bound) := by
  unfold Engine.run? Machine.run?
  cases Machine.entryPoint? c with
  | none => exact .some ⟨rfl, h⟩
  | some main =>
    have hruns : Option.Rel _ ((e.start main).go? c bound) _ := (h.start main).go? m.settings m.diagnostics hfew
    dsimp only
    generalize (e.start main).go? c bound = r at hruns ⊢
    generalize State.run? c m.settings bound (m.start main) m.diagnostics = x at hruns ⊢
    cases hruns with
    | none => exact .none
    | @some r x hends =>
      obtain ⟨result, e'⟩ := r
      obtain ⟨hresult, hshares⟩ := hends
      obtain rfl : x.result = result := hresult
      refine .some ?_
      obtain ⟨hstore, hrefuses, hinput, houtput⟩ := hshares
      replace houtput : e'.output = x.state.output := houtput
      unfold Engine.finish Machine.finish
      cases x.result with
      | error failure => exact ⟨rfl, hstore, hrefuses, hinput, houtput⟩
      | ok u =>
        dsimp only
        rw [houtput]
        cases x.state.output.flush <;> exact ⟨rfl, hstore, hrefuses, hinput, rfl⟩

end Engine
end Bytecode
