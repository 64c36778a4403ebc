import Bytecode.Proofs.Machine.Engine

/-! Instructions that fail do so before their first lasting effect. An action that works in place spares a part of its state if
    it never touches it, and fails early for this part if it has not touched it by the time that it comes to a fault. An
    action that spares a part may be followed by one that fails early for it, and one that fails early by one that cannot
    fail; that is how every action on the heap and every instruction is made (`failsEarly_execute`). -/

namespace Bytecode

section
variable {ε σ α β γ δ : Type}

/-- The state that an action leaves behind, also where it fails. -/
def left : EStateM.Result ε σ α → σ
  | .ok _ s | .error _ s => s

/-- An action leaves a part of the state as it is, whether it fails or not. -/
def Spares (part : σ → γ) (act : EStateM ε σ α) : Prop :=
  ∀ s, part (left (act s)) = part s

/-- An action that fails has left a part of the state as it was. -/
def FailsEarly (part : σ → γ) (act : EStateM ε σ α) : Prop :=
  ∀ s e s', act s = .error e s' → part s' = part s

/-- An action cannot fail. -/
def Succeeds (act : EStateM ε σ α) : Prop :=
  ∀ s, ∃ a s', act s = .ok a s'

variable {part : σ → γ} {act : EStateM ε σ α} {next : α → EStateM ε σ β}

namespace Spares

theorem pure (a : α) : Spares part (Pure.pure a : EStateM ε σ α) :=
  fun _ => rfl

theorem throw (e : ε) : Spares part (MonadExcept.throw e : EStateM ε σ α) :=
  fun _ => rfl

theorem get : Spares part (MonadState.get : EStateM ε σ σ) :=
  fun _ => rfl

theorem ofExcept (x : Except ε α) : Spares part (ofExcept x : EStateM ε σ α) := by
  cases x <;> exact fun _ => rfl

theorem modify {f : σ → σ} (hf : ∀ s, part (f s) = part s) : Spares part (modify f : EStateM ε σ Unit) :=
  hf

/-- What spares a part at first and later on spares it. -/
theorem bind (ha : Spares part act) (hnext : ∀ a, Spares part (next a)) : Spares part (act >>= next) := by
  intro s
  have hs := ha s
  cases hact : act s with
  | ok a s' =>
    rw [hact] at hs
    rw [EStateM.bind_of_ok hact]
    exact (hnext a s').trans hs
  | error e s' =>
    rw [hact] at hs
    rw [EStateM.bind_of_error hact]
    exact hs

/-- What spares a part spares all that depends on this part. -/
theorem of_part (ha : Spares part act) (f : γ → δ) : Spares (fun s => f (part s)) act :=
  fun s => congrArg f (ha s)

/-- A part that is never touched is untouched when an action fails. -/
theorem failsEarly (ha : Spares part act) : FailsEarly part act := by
  intro s e s' hact
  have hs := ha s
  rw [hact] at hs
  exact hs

end Spares

namespace Succeeds

theorem pure (a : α) : Succeeds (Pure.pure a : EStateM ε σ α) :=
  fun s => ⟨a, s, rfl⟩

theorem modify (f : σ → σ) : Succeeds (modify f : EStateM ε σ Unit) :=
  fun s => ⟨(), f s, rfl⟩

theorem bind (ha : Succeeds act) (hnext : ∀ a, Succeeds (next a)) : Succeeds (act >>= next) := by
  intro s
  obtain ⟨a, s', hact⟩ := ha s
  obtain ⟨b, s'', hb⟩ := hnext a s'
  exact ⟨b, s'', (EStateM.bind_of_ok hact).trans hb⟩

/-- An action that never fails has nothing to leave behind. -/
theorem failsEarly (ha : Succeeds act) : FailsEarly part act := by
  intro s e s' hact
  obtain ⟨a, s'', hok⟩ := ha s
  rw [hok] at hact
  cases hact

end Succeeds

namespace FailsEarly

/-- Behind an action that spares a part it is early enough to fail. -/
theorem bind (ha : Spares part act) (hnext : ∀ a, FailsEarly part (next a)) : FailsEarly part (act >>= next) := by
  intro s e s'' h
  have hs := ha s
  cases hact : act s with
  | ok a s' =>
    rw [hact] at hs
    rw [EStateM.bind_of_ok hact] at h
    exact (hnext a s' e s'' h).trans hs
  | error e' s' =>
    rw [hact] at hs
    rw [EStateM.bind_of_error hact] at h
    cases h
    exact hs

/-- Behind an action that may have touched a part nothing may fail. -/
theorem bind_succeeds (ha : FailsEarly part act) (hnext : ∀ a, Succeeds (next a)) : FailsEarly part (act >>= next) := by
  intro s e s'' h
  cases hact : act s with
  | ok a s' =>
    rw [EStateM.bind_of_ok hact] at h
    obtain ⟨b, t, hb⟩ := hnext a s'
    cases hb.symm.trans h
  | error e' s' =>
    rw [EStateM.bind_of_error hact] at h
    cases h
    exact ha s e s'' hact

end FailsEarly
end

/-! ### The heap -/

namespace Store

/-- A number can always be taken, since the counter goes around. -/
theorem succeeds_freshId : Succeeds freshId :=
  fun t => ⟨t.next, { t with next := t.next + 1 }, rfl⟩

section
variable {γ : Type} {part : Store → γ} (id : Int64)

/-- A struct is looked up without any effect, whether it is found or not. -/
theorem spares_fields : Spares part (fields id) := by
  refine .bind .get fun t => ?_
  cases t.structs[id]? with
  | none => exact .throw _
  | some fields => exact .pure fields

theorem spares_getField (field : String) : Spares part (getField id field) := by
  refine .bind (spares_fields id) fun fields => ?_
  cases fields.get? field with
  | none => exact .throw _
  | some v => exact .pure v

theorem spares_cells : Spares part (cells id) := by
  refine .bind .get fun t => ?_
  cases t.arrays[id]? with
  | none => exact .throw _
  | some cells => exact .pure cells

theorem spares_arrayLength : Spares part (arrayLength id) :=
  .bind (spares_cells id) fun cells => .pure cells.size

theorem spares_cellIndex (length : Nat) (index : Int64) : Spares part (cellIndex length index) := by
  unfold cellIndex
  split
  · exact .throw _
  · exact .pure _

theorem spares_getIndex (index : Int64) : Spares part (getIndex id index) :=
  .bind (spares_cells id) fun cells => .bind (spares_cellIndex cells.size index) fun _ => .pure _

/-- Each check on the way to the place of a cell comes before any effect. -/
theorem spares_gridIndex (row column : Int64) : Spares part (gridIndex id row column) := by
  refine .bind (spares_cells id) fun cells => .bind .get fun t => ?_
  cases t.strides[id]? with
  | none => exact .throw _
  | some columns =>
    dsimp only
    split
    · exact .throw _
    · split
      · exact .throw _
      · split
        · exact .throw _
        · exact .pure _

theorem spares_getCell (row column : Int64) : Spares part (getCell id row column) :=
  .bind (spares_gridIndex id row column) fun _ => .bind (spares_cells id) fun _ => .pure _

/-- Whether there is room is known before a number is taken. -/
theorem spares_filled (refuses : Nat → Bool) (length : Nat) (fill : Value) :
    Spares part (filled refuses length fill) := by
  unfold filled
  split
  · exact .throw _
  · exact .pure _

/-- A field is set when nothing can fail any more. -/
theorem failsEarly_setField (field : String) (v : Value) : FailsEarly part (setField id field v) :=
  .bind (spares_fields id) fun _ => (Succeeds.modify _).failsEarly

theorem failsEarly_setIndex (index : Int64) (v : Value) : FailsEarly part (setIndex id index v) :=
  .bind (spares_cells id) fun cells => .bind (spares_cellIndex cells.size index) fun _ => (Succeeds.modify _).failsEarly

theorem failsEarly_setCell (row column : Int64) (v : Value) : FailsEarly part (setCell id row column v) :=
  .bind (spares_gridIndex id row column) fun _ => .bind (spares_cells id) fun _ => (Succeeds.modify _).failsEarly

theorem succeeds_newStruct : Succeeds newStruct :=
  .bind succeeds_freshId fun id => .bind (.modify _) fun _ => .pure id

/-- An array takes a number when its cells are there. -/
theorem failsEarly_newArray (refuses : Nat → Bool) (length : Int64) (fill : Value) :
    FailsEarly part (newArray refuses length fill) := by
  unfold newArray
  split
  · exact (Spares.throw _).failsEarly
  · -- A number is taken and the cells are put into the table behind the last check.
    exact .bind (spares_filled _ _ _) fun _ =>
      (succeeds_freshId.bind fun id => .bind (.modify _) fun _ => .pure id).failsEarly

theorem failsEarly_newGrid (refuses : Nat → Bool) (rows columns : Int64) (fill : Value) :
    FailsEarly part (newGrid refuses rows columns fill) := by
  unfold newGrid
  split
  · exact (Spares.throw _).failsEarly
  · split
    · exact (Spares.throw _).failsEarly
    · exact .bind (spares_filled _ _ _) fun _ =>
        (succeeds_freshId.bind fun id => .bind (.modify _) fun _ => .bind (.modify _) fun _ => .pure id).failsEarly

end
end Store

/-! ### Instructions -/

namespace Live

/-- The streams. -/
def streams (l : Live) : Input × Output :=
  (l.input, l.output)

/-- All that outlasts the frames. -/
def shared (l : Live) : Store × Input × Output :=
  (l.store, l.input, l.output)

end Live

namespace Exec

/-- An action of an operation leaves the streams alone, and has not touched the tables if it fails. -/
structure Orderly {α : Type} (act : Exec α) : Prop where
  streams : Spares Live.streams act
  store : FailsEarly Live.store act

section
variable {α β : Type} {act : Exec α} {next : α → Exec β}

theorem spares_push (v : Value) : Spares Live.shared (push v) :=
  fun _ => rfl

theorem succeeds_push (v : Value) : Succeeds (push v) :=
  .modify _

/-- Operands are taken from the frame alone. -/
theorem spares_popAs (need : Value → Except Fault α) : Spares Live.shared (popAs need) := by
  refine .bind .get fun l => ?_
  cases l.frame.stack with
  | nil => exact .throw _
  | cons v rest => exact .bind (.modify fun _ => rfl) fun _ => .ofExcept _

namespace Orderly

theorem of_spares (h : Spares Live.shared act) : Orderly act :=
  ⟨h.of_part Prod.snd, (h.of_part Prod.fst).failsEarly⟩

/-- Checks and operands may come first. -/
theorem bind (ha : Spares Live.shared act) (hnext : ∀ a, Orderly (next a)) : Orderly (act >>= next) :=
  ⟨.bind (ha.of_part Prod.snd) fun a => (hnext a).streams, .bind (ha.of_part Prod.fst) fun a => (hnext a).store⟩

theorem pop {need : Value → Except Fault α} (hnext : ∀ a, Orderly (next a)) : Orderly (popAs need >>= next) :=
  .bind (spares_popAs need) hnext

theorem check {x : Except Fault α} (hnext : ∀ a, Orderly (next a)) : Orderly (ofExcept x >>= next) :=
  .bind (.ofExcept x) hnext

theorem push (v : Value) : Orderly (Exec.push v) :=
  .of_spares (spares_push v)

theorem pushed (ha : Orderly act) (result : α → Value) : Orderly (act >>= fun a => Exec.push (result a)) :=
  ⟨.bind ha.streams fun a => (spares_push (result a)).of_part Prod.snd,
    ha.store.bind_succeeds fun a => succeeds_push (result a)⟩

/-- An action on the store has no way to the streams. -/
theorem onStore {act : Store.Action α} (h : FailsEarly (fun t => t) act) : Orderly (Exec.onStore act) := by
  constructor
  · intro l
    unfold Exec.onStore
    cases act l.store <;> rfl
  · intro l fault l' hl
    unfold Exec.onStore at hl
    cases hact : act l.store with
    | ok a t =>
      rw [hact] at hl
      cases hl
    | error fault' t =>
      rw [hact] at hl
      cases hl
      exact h _ _ _ hact

theorem reading {act : Store.Action α} (h : Spares (fun t => t) act) (result : α → Value) :
    Orderly (Exec.onStore act >>= fun a => Exec.push (result a)) :=
  pushed (onStore h.failsEarly) result

end Orderly
end

/-- The fault of an operation comes before its effect. -/
theorem orderly_operate (refuses : Nat → Bool) (o : Operation) : Orderly (operate refuses o) := by
  cases o with
  | push v => exact .push v
  | pop => exact .pop fun _ => .of_spares (.pure _)
  | dup =>
    refine .bind .get fun l => ?_
    cases l.frame.stack with
    | nil => exact .of_spares (.throw _)
    | cons v rest => exact .push v
  | nop => exact .of_spares (.pure _)
  | arith op | order op => exact .pop fun _ => .pop fun _ => .check fun _ => .push _
  | and | or | equal | differ | concat => exact .pop fun _ => .pop fun _ => .push _
  | not | textLength => exact .pop fun _ => .push _
  | charAt => exact .pop fun _ => .pop fun _ => .check fun _ => .push _
  | toInt | toDouble | toText => exact .pop fun _ => .check fun _ => .push _
  -- The heap is changed last, when nothing can fail any more but the change itself.
  | newStruct => exact .pushed (.onStore Store.succeeds_newStruct.failsEarly) _
  | addField field => exact .pop fun id => .onStore (Store.failsEarly_setField id field .null)
  | setField field => exact .pop fun v => .pop fun id => .onStore (Store.failsEarly_setField id field v)
  | getField field => exact .pop fun id => .reading (Store.spares_getField id field) _
  | newArray =>
    exact .pop fun fill => .pop fun length => .pushed (.onStore (Store.failsEarly_newArray refuses length fill)) _
  | arrayLength => exact .pop fun id => .reading (Store.spares_arrayLength id) _
  | setIndex => exact .pop fun v => .pop fun index => .pop fun id => .onStore (Store.failsEarly_setIndex id index v)
  | getIndex => exact .pop fun index => .pop fun id => .reading (Store.spares_getIndex id index) _
  | newGrid =>
    exact .pop fun fill => .pop fun rows => .pop fun columns =>
      .pushed (.onStore (Store.failsEarly_newGrid refuses rows columns fill)) _
  | setCell =>
    exact .pop fun v => .pop fun column => .pop fun row => .pop fun id =>
      .onStore (Store.failsEarly_setCell id row column v)
  | getCell =>
    exact .pop fun column => .pop fun row => .pop fun id => .reading (Store.spares_getCell id row column) _

/-- A write touches neither the store nor the input, not even if it is refused. -/
theorem spares_writeText (text : String) : Spares (fun l => (l.store, l.input)) (writeText text) := by
  intro l
  unfold writeText
  rcases l.output.write text with ⟨_ | _, output⟩ <;> rfl

theorem spares_readLine : Spares (fun l => (l.store, l.output)) readLine := by
  intro l
  unfold readLine
  rcases l.input.readLine with ⟨_ | _, input⟩ <;> rfl

/-- Instructions other than a write and a read are orderly. -/
theorem orderly_execute (refuses : Nat → Bool) (c : Chunk) {i : Instr} (hwrite : i ≠ .write) (hread : i ≠ .read) :
    Orderly (execute refuses c i) := by
  cases i with
  | op o =>
    exact ⟨.bind (orderly_operate refuses o).streams fun _ => .pure _,
      (orderly_operate refuses o).store.bind_succeeds fun _ => .pure _⟩
  | load slot =>
    refine .bind .get fun l => ?_
    cases l.frame.locals[slot]? with
    | none => exact .of_spares (.throw _)
    | some v => exact .bind (spares_push v) fun _ => .of_spares (.pure _)
  | store slot => exact .pop fun v => .bind (.modify fun _ => rfl) fun _ => .of_spares (.pure _)
  | jump target => exact .bind (.modify fun _ => rfl) fun _ => .of_spares (.pure _)
  | jumpUnless target =>
    refine .pop fun b => .bind (.modify fun l => ?_) fun _ => .of_spares (.pure _)
    cases b <;> rfl
  | call name =>
    simp only [execute]
    cases c.get? name with
    | none => exact .of_spares (.throw _)
    | some g =>
      refine .bind .get fun l => ?_
      split
      · exact .of_spares (.throw _)
      · exact .bind (.modify fun _ => rfl) fun _ => .of_spares (.pure _)
  | ret => exact .bind .get fun l => .bind (.modify fun _ => rfl) fun _ => .of_spares (.pure _)
  | write => exact absurd rfl hwrite
  | read => exact absurd rfl hread

theorem spares_write (refuses : Nat → Bool) (c : Chunk) :
    Spares (fun l => (l.store, l.input)) (execute refuses c .write) :=
  .bind ((spares_popAs _).of_part fun p => (p.1, p.2.1)) fun v => .bind (spares_writeText v.text) fun _ => .pure _

theorem spares_read (refuses : Nat → Bool) (c : Chunk) :
    Spares (fun l => (l.store, l.output)) (execute refuses c .read) :=
  .bind spares_readLine fun _ => .bind ((spares_push _).of_part fun p => (p.1, p.2.2)) fun _ => .pure _

/-- Only a write touches the output. -/
theorem spares_output (refuses : Nat → Bool) (c : Chunk) {i : Instr} (hwrite : i ≠ .write) :
    Spares Live.output (execute refuses c i) := by
  by_cases hread : i = .read
  · subst hread
    exact (spares_read refuses c).of_part Prod.snd
  · exact (orderly_execute refuses c hwrite hread).streams.of_part Prod.snd

/-- Only a read touches the input. -/
theorem spares_input (refuses : Nat → Bool) (c : Chunk) {i : Instr} (hread : i ≠ .read) :
    Spares Live.input (execute refuses c i) := by
  by_cases hwrite : i = .write
  · subst hwrite
    exact (spares_write refuses c).of_part Prod.snd
  · exact (orderly_execute refuses c hwrite hread).streams.of_part Prod.fst

/-- Every instruction that fails has left the tables as they were. -/
theorem failsEarly_execute (refuses : Nat → Bool) (c : Chunk) (i : Instr) :
    FailsEarly Live.store (execute refuses c i) := by
  by_cases hwrite : i = .write
  · subst hwrite
    exact ((spares_write refuses c).of_part Prod.fst).failsEarly
  by_cases hread : i = .read
  · subst hread
    exact ((spares_read refuses c).of_part Prod.fst).failsEarly
  exact (orderly_execute refuses c hwrite hread).store

end Exec
end Bytecode
