import Bytecode.Fault

/-! The operand stack of a frame, with its top at the head. Taking an operand says what is wrong with it: there is
    none, it is null, or it has another kind. -/

namespace Bytecode

/-- Operands, the top first. -/
abbrev Operands := List Value

namespace Operands

/-- Takes the top operand. -/
def pop : Operands → Except Fault (Value × Operands)
  | [] => .error .underflow
  | v :: rest => .ok (v, rest)

/-- Takes the top operand, which must not be null. -/
def popPresent (stack : Operands) : Except Fault (Value × Operands) := do
  let (v, rest) ← pop stack
  match v with
  | .null => throw .nullReference
  | v => return (v, rest)

def popInt (stack : Operands) : Except Fault (Int64 × Operands) := do
  let (v, rest) ← popPresent stack
  match v with
  | .int n => return (n, rest)
  | v => throw (.expected .int v.kind)

def popBool (stack : Operands) : Except Fault (Bool × Operands) := do
  let (v, rest) ← popPresent stack
  match v with
  | .bool b => return (b, rest)
  | v => throw (.expected .bool v.kind)

def popString (stack : Operands) : Except Fault (String × Operands) := do
  let (v, rest) ← popPresent stack
  match v with
  | .str s => return (s, rest)
  | v => throw (.expected .string v.kind)

def popObject (stack : Operands) : Except Fault (Int64 × Operands) := do
  let (v, rest) ← popPresent stack
  match v with
  | .object id => return (id, rest)
  | v => throw (.expected .object v.kind)

end Operands

end Bytecode
