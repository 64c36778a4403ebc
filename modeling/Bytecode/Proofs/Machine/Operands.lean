import Bytecode.Machine.Operation
import Mathlib.Data.List.Basic

/-! What the operations do with the operand stack. An operation takes a fixed number of operands from the top and gives a
    fixed number back; it neither reads nor moves what lies below (`Operation.apply_append`), and a fault about the
    frame itself means that there were too few operands (`Operation.apply_sound`). -/

/-! ### Results of computations that may fail -/

section
variable {ε α β : Type} {x : Except ε α} {b : β}

theorem Except.bind_eq_ok_iff {k : α → Except ε β} : x >>= k = .ok b ↔ ∃ a, x = .ok a ∧ k a = .ok b := by
  cases x with
  | error e =>
    constructor
    · rintro ⟨⟩
    · rintro ⟨_, ⟨⟩, _⟩
  | ok a => exact ⟨fun h => ⟨a, rfl, h⟩, fun ⟨_, rfl, h⟩ => h⟩

theorem Except.map_eq_ok_iff {f : α → β} : f <$> x = .ok b ↔ ∃ a, x = .ok a ∧ f a = b := by
  cases x with
  | error e =>
    constructor
    · rintro ⟨⟩
    · rintro ⟨_, ⟨⟩, _⟩
  | ok a => exact ⟨fun h => ⟨a, rfl, Except.ok.inj h⟩, fun ⟨_, rfl, h⟩ => congrArg _ h⟩

theorem Except.map_eq_error_iff {e : ε} (f : α → β) : f <$> x = .error e ↔ x = .error e := by
  cases x <;> simp [Functor.map, Except.map]

theorem Except.pure_eq_ok_iff {a : α} {b : α} : (pure a : Except ε α) = .ok b ↔ a = b :=
  ⟨Except.ok.inj, congrArg _⟩

end

namespace Bytecode
namespace Value

/-! ### What is asked of an operand -/

/-- The value itself, which must not be null. -/
def needPresent : Value → Except Fault Value
  | .null => .error .nullReference
  | v => .ok v

def needInt : Value → Except Fault Int64
  | .null => .error .nullReference
  | .int n => .ok n
  | v => .error (.expected .int v.kind)

def needBool : Value → Except Fault Bool
  | .null => .error .nullReference
  | .bool b => .ok b
  | v => .error (.expected .bool v.kind)

def needString : Value → Except Fault String
  | .null => .error .nullReference
  | .str s => .ok s
  | v => .error (.expected .string v.kind)

def needObject : Value → Except Fault Int64
  | .null => .error .nullReference
  | .object id => .ok id
  | v => .error (.expected .object v.kind)

end Value

namespace Operands

@[simp] theorem pop_cons (v : Value) (stack : Operands) : pop (v :: stack) = pure (v, stack) := rfl

@[simp] theorem popPresent_cons (v : Value) (stack : Operands) :
    popPresent (v :: stack) = v.needPresent >>= fun v => pure (v, stack) := by
  cases v <;> rfl

@[simp] theorem popInt_cons (v : Value) (stack : Operands) :
    popInt (v :: stack) = v.needInt >>= fun n => pure (n, stack) := by
  cases v <;> rfl

@[simp] theorem popBool_cons (v : Value) (stack : Operands) :
    popBool (v :: stack) = v.needBool >>= fun b => pure (b, stack) := by
  cases v <;> rfl

@[simp] theorem popString_cons (v : Value) (stack : Operands) :
    popString (v :: stack) = v.needString >>= fun s => pure (s, stack) := by
  cases v <;> rfl

@[simp] theorem popObject_cons (v : Value) (stack : Operands) :
    popObject (v :: stack) = v.needObject >>= fun id => pure (id, stack) := by
  cases v <;> rfl

@[simp] theorem pop_nil : pop [] = .error .underflow := rfl

@[simp] theorem popPresent_nil : popPresent [] = .error .underflow := rfl

@[simp] theorem popInt_nil : popInt [] = .error .underflow := rfl

@[simp] theorem popBool_nil : popBool [] = .error .underflow := rfl

@[simp] theorem popString_nil : popString [] = .error .underflow := rfl

@[simp] theorem popObject_nil : popObject [] = .error .underflow := rfl

end Operands

/-! ### Faults about the frame

A missing operand, a slot that was never set and missing arguments are faults of the code that runs; all other faults are
about the values that the code works with. -/

/-- Faults about the frame itself. -/
def Fault.ofFrame : Fault → Bool
  | .underflow | .unsetSlot _ | .missingArguments .. => true
  | _ => false

/-- A computation fails with a fault about the frame only where an operand is missing. -/
def Sound (missing : Prop) {α : Type} (x : Except Fault α) : Prop :=
  ∀ fault, x = .error fault → fault.ofFrame = true → fault = .underflow ∧ missing

namespace Sound
variable {missing : Prop} {α β : Type}

@[simp] theorem pure (a : α) : Sound missing (Pure.pure a : Except Fault α) := by
  intro fault h
  cases h

@[simp] theorem ok (a : α) : Sound missing (.ok a : Except Fault α) := by
  intro fault h
  cases h

@[simp] theorem error_iff {fault : Fault} :
    Sound missing (.error fault : Except Fault α) ↔ (fault.ofFrame = true → fault = .underflow ∧ missing) := by
  constructor
  · intro h
    exact h fault rfl
  · intro h fault' h'
    cases h'
    exact h

@[simp] theorem bind_iff {x : Except Fault α} {k : α → Except Fault β} :
    Sound missing (x >>= k) ↔ Sound missing x ∧ ∀ a, x = .ok a → Sound missing (k a) := by
  cases x with
  | error fault =>
    show Sound missing (.error fault) ↔ Sound missing (.error fault) ∧ _
    simp
  | ok a =>
    show Sound missing (k a) ↔ _
    simp

@[simp] theorem map_iff {x : Except Fault α} {f : α → β} : Sound missing (f <$> x) ↔ Sound missing x := by
  cases x with
  | error fault =>
    show Sound missing (.error fault) ↔ Sound missing (.error fault)
    simp
  | ok a =>
    show Sound missing (.ok (f a)) ↔ Sound missing (.ok a)
    simp

theorem elim (o : Option α) {fault : Fault} (h : fault.ofFrame = false) :
    Sound missing (o.elim (.error fault) (.ok : α → Except Fault α)) := by
  cases o <;> simp [h]

end Sound

section
variable (missing : Prop)

@[simp] theorem Value.needPresent_sound (v : Value) : Sound missing v.needPresent := by
  cases v <;> simp [Value.needPresent, Fault.ofFrame]

@[simp] theorem Value.needInt_sound (v : Value) : Sound missing v.needInt := by
  cases v <;> simp [Value.needInt, Fault.ofFrame]

@[simp] theorem Value.needBool_sound (v : Value) : Sound missing v.needBool := by
  cases v <;> simp [Value.needBool, Fault.ofFrame]

@[simp] theorem Value.needString_sound (v : Value) : Sound missing v.needString := by
  cases v <;> simp [Value.needString, Fault.ofFrame]

@[simp] theorem Value.needObject_sound (v : Value) : Sound missing v.needObject := by
  cases v <;> simp [Value.needObject, Fault.ofFrame]

@[simp] theorem Arith.apply_sound (op : Arith) (left right : Value) : Sound missing (op.apply left right) := by
  unfold Arith.apply
  split
  · cases op <;> simp
    split <;> simp [Fault.ofFrame]
  · cases op <;> simp
  · simp [Fault.ofFrame]

@[simp] theorem Value.compare?_sound (left right : Value) : Sound missing (left.compare? right) := by
  unfold Value.compare?
  split <;> simp [Fault.ofFrame]

@[simp] theorem Value.toInt_sound (v : Value) : Sound missing v.toInt := by
  unfold Value.toInt
  split
  · simp
  · simp
  · exact Sound.elim _ rfl
  · simp [Fault.ofFrame]

@[simp] theorem Value.toDouble_sound (v : Value) : Sound missing v.toDouble := by
  unfold Value.toDouble
  split
  · simp
  · simp
  · exact Sound.elim _ rfl
  · simp [Fault.ofFrame]

@[simp] theorem Value.toText_sound (v : Value) : Sound missing v.toText := by
  unfold Value.toText
  split <;> simp [Fault.ofFrame]

@[simp] theorem charAt_sound (s : String) (index : Int64) : Sound missing (charAt s index) := by
  unfold charAt
  split
  · simp [Fault.ofFrame]
  · split <;> simp [Fault.ofFrame]

namespace Heap
variable (h : Heap) (id : Int64)

@[simp] theorem fields_sound : Sound missing (h.fields id) := by
  unfold fields
  split <;> simp [Fault.ofFrame]

@[simp] theorem cells_sound : Sound missing (h.cells id) := by
  unfold cells
  split <;> simp [Fault.ofFrame]

@[simp] theorem newCells_sound (length : Nat) (fill : Value) (columns : Option Nat) :
    Sound missing (h.newCells length fill columns) := by
  unfold newCells
  split <;> simp [Fault.ofFrame]

@[simp] theorem cellIndex_sound (cells : Array Value) (index : Int64) : Sound missing (cellIndex cells index) := by
  unfold cellIndex
  split <;> simp [Fault.ofFrame]

@[simp] theorem gridIndex_sound (cells : Array Value) (columns : Option Nat) (row column : Int64) :
    Sound missing (gridIndex id cells columns row column) := by
  unfold gridIndex
  split
  · simp [Fault.ofFrame]
  · simp only
    split <;> simp [Fault.ofFrame]

@[simp] theorem setField_sound (field : String) (v : Value) : Sound missing (h.setField id field v) := by
  simp [setField]

@[simp] theorem addField_sound (field : String) : Sound missing (h.addField id field) :=
  setField_sound missing h id field .null

@[simp] theorem getField_sound (field : String) : Sound missing (h.getField id field) := by
  unfold getField
  simp only [Sound.bind_iff, fields_sound, true_and]
  intro fields _
  split
  · exact .pure _
  · exact Sound.error_iff.mpr (by simp [Fault.ofFrame])

@[simp] theorem newArray_sound (length : Int64) (fill : Value) : Sound missing (h.newArray length fill) := by
  unfold newArray
  split <;> simp [Fault.ofFrame]

@[simp] theorem newGrid_sound (rows columns : Int64) (fill : Value) : Sound missing (h.newGrid rows columns fill) := by
  unfold newGrid
  split
  · simp [Fault.ofFrame]
  · simp only
    split <;> simp [Fault.ofFrame]

@[simp] theorem arrayLength_sound : Sound missing (h.arrayLength id) := by
  simp [arrayLength]

@[simp] theorem getIndex_sound (index : Int64) : Sound missing (h.getIndex id index) := by
  simp [getIndex]

@[simp] theorem setIndex_sound (index : Int64) (v : Value) : Sound missing (h.setIndex id index v) := by
  simp [setIndex]

@[simp] theorem getCell_sound (row column : Int64) : Sound missing (h.getCell id row column) := by
  simp [getCell]

@[simp] theorem setCell_sound (row column : Int64) (v : Value) : Sound missing (h.setCell id row column v) := by
  simp [setCell]

end Heap
end

/-! ### Operations -/

namespace Operation

/-- How many operands an operation takes from the stack. -/
def takes : Operation → Nat
  | .push _ | .nop | .newStruct => 0
  | .pop | .dup | .not | .textLength | .toInt | .toDouble | .toText | .addField _ | .getField _ | .arrayLength => 1
  | .arith _ | .and | .or | .order _ | .equal | .differ | .charAt | .concat => 2
  | .setField _ | .newArray | .getIndex => 2
  | .setIndex | .newGrid | .getCell => 3
  | .setCell => 4

/-- How many operands an operation leaves in their place. -/
def gives : Operation → Nat
  | .pop | .nop | .addField _ | .setField _ | .setIndex | .setCell => 0
  | .dup => 2
  | _ => 1

/-- The operation is none that puts a reference of its own on the operands. -/
def objectFree : Operation → Bool
  | .push (.object _) => false
  | _ => true

variable (heap : Heap) (o : Operation)

/-- A computation leaves a number of operands behind if it succeeds. -/
def Leaves (n : Nat) (x : Except Fault (Operands × Option Change)) : Prop :=
  ∀ r, x = .ok r → r.1.length = n

section
variable {α : Type} {n : Nat} {x : Except Fault α}

@[simp] theorem leaves_bind_iff {k : α → Except Fault (Operands × Option Change)} :
    Leaves n (x >>= k) ↔ ∀ a, x = .ok a → Leaves n (k a) := by
  simp only [Leaves, Except.bind_eq_ok_iff]
  exact ⟨fun h a ha r hr => h r ⟨a, ha, hr⟩, fun h r ⟨a, ha, hr⟩ => h a ha r hr⟩

@[simp] theorem leaves_map_iff {f : α → Operands × Option Change} :
    Leaves n (f <$> x) ↔ ∀ a, x = .ok a → (f a).1.length = n := by
  simp only [Leaves, Except.map_eq_ok_iff]
  exact ⟨fun h a ha => h _ ⟨a, ha, rfl⟩, fun h r ⟨a, ha, hr⟩ => hr ▸ h a ha⟩

@[simp] theorem leaves_pure_iff {r : Operands × Option Change} : Leaves n (pure r) ↔ r.1.length = n :=
  ⟨fun h => h r rfl, fun h r' hr => by cases hr; exact h⟩

@[simp] theorem leaves_ok_iff {r : Operands × Option Change} : Leaves n (.ok r) ↔ r.1.length = n :=
  leaves_pure_iff

end

/-- What an operation does with exactly the operands it takes: it raises no fault about the frame, it gives as many
operands back as it says, and a rest below them stays. -/
structure Local (args : Operands) : Prop where
  sound : Sound False (o.apply heap args)
  leaves : Leaves o.gives (o.apply heap args)
  append : ∀ rest, o.apply heap (args ++ rest) = (fun r => (r.1 ++ rest, r.2)) <$> o.apply heap args

theorem local_of_length {args : Operands} (h : args.length = o.takes) : Local heap o args := by
  cases o with
  | push | nop | newStruct =>
    obtain rfl := List.length_eq_zero_iff.mp h
    exact ⟨by simp [apply], by simp [apply, gives], fun rest => rfl⟩
  | pop | dup | not | textLength | toInt | toDouble | toText | addField | getField | arrayLength =>
    obtain ⟨a, rfl⟩ := List.length_eq_one_iff.mp h
    exact ⟨by simp [apply], by simp [apply, gives], fun rest => by simp [apply]⟩
  | arith | and | or | order | equal | differ | charAt | concat | setField | newArray | getIndex =>
    obtain ⟨a, b, rfl⟩ := List.length_eq_two.mp h
    exact ⟨by simp [apply], by simp [apply, gives], fun rest => by simp [apply]⟩
  | setIndex | newGrid | getCell =>
    obtain ⟨a, b, c, rfl⟩ := List.length_eq_three.mp h
    exact ⟨by simp [apply], by simp [apply, gives], fun rest => by simp [apply]⟩
  | setCell =>
    obtain ⟨a, b, c, d, rfl⟩ := List.length_eq_four.mp h
    exact ⟨by simp [apply], by simp [apply, gives], fun rest => by simp [apply]⟩

variable {heap o} {stack : Operands}

/-- An operation neither reads nor moves what lies below the operands it takes. -/
theorem apply_append (h : o.takes ≤ stack.length) (rest : Operands) :
    o.apply heap (stack ++ rest) = (fun r => (r.1 ++ rest, r.2)) <$> o.apply heap stack := by
  have hlen : (stack.take o.takes).length = o.takes := by simp [h]
  have hlocal := (local_of_length heap o hlen).append
  rw [← List.take_append_drop o.takes stack, List.append_assoc, hlocal, hlocal]
  simp

/-- An operation that succeeds puts the operands it gives in the place of those it takes. -/
theorem apply_ok (h : o.takes ≤ stack.length) {r : Operands × Option Change} (hr : o.apply heap stack = .ok r) :
    ∃ new, new.length = o.gives ∧ r.1 = new ++ stack.drop o.takes := by
  have hlen : (stack.take o.takes).length = o.takes := by simp [h]
  have hlocal := local_of_length heap o hlen
  rw [← List.take_append_drop o.takes stack, hlocal.append, Except.map_eq_ok_iff] at hr
  obtain ⟨r', hr', rfl⟩ := hr
  exact ⟨r'.1, hlocal.leaves r' hr', rfl⟩

/-- A fault about the frame in an operation means that there are too few operands. -/
theorem apply_sound (heap : Heap) (o : Operation) (stack : Operands) :
    Sound (stack.length < o.takes) (o.apply heap stack) := by
  by_cases h : o.takes ≤ stack.length
  · have hlen : (stack.take o.takes).length = o.takes := by simp [h]
    have hlocal := local_of_length heap o hlen
    rw [← List.take_append_drop o.takes stack, hlocal.append, Sound.map_iff]
    intro fault hf hframe
    exact (hlocal.sound fault hf hframe).2.elim
  · -- The operations that take two or more operands fail at the first one that is missing.
    have hlt : stack.length < o.takes := Nat.lt_of_not_le h
    match stack, hlt with
    | [], hlt => cases o <;> simp [takes] at hlt <;> simp [apply, takes]
    | [a], hlt => cases o <;> simp [takes] at hlt <;> simp [apply, takes]
    | [a, b], hlt => cases o <;> simp [takes] at hlt <;> simp [apply, takes]
    | [a, b, c], hlt =>
      cases o <;> simp [takes] at hlt
      simp [apply, takes]
    | a :: b :: c :: d :: rest, hlt => cases o <;> simp [takes] at hlt <;> omega

end Operation
end Bytecode
