import Bytecode.Value

/-! The instructions of the stack machine. An operation works on the operands and the heap alone; the other
    instructions reach the slots of a frame, the flow of control or the streams. -/

namespace Bytecode

/-- Arithmetic on two numbers of one kind. -/
inductive Arith where
  | add
  | sub
  | mul
  | div
  deriving DecidableEq, Repr

/-- Comparison of two values of one kind by their order. -/
inductive Order where
  | lt
  | le
  | gt
  | ge
  deriving DecidableEq, Repr

/-- What an instruction does with the operands and the heap. -/
inductive Operation where
  | push (v : Value)
  | pop
  | dup
  | nop
  | arith (op : Arith)
  | and
  | or
  | not
  | order (op : Order)
  | equal
  | differ
  | textLength
  | charAt
  | concat
  | toInt
  | toDouble
  | toText
  | newStruct
  | addField (field : String)
  | setField (field : String)
  | getField (field : String)
  | newArray
  | arrayLength
  | setIndex
  | getIndex
  | newGrid
  | setCell
  | getCell

/-- An instruction. -/
inductive Instr where
  | op (o : Operation)
  | load (slot : Nat)
  | store (slot : Nat)
  | jump (target : Nat)
  | jumpUnless (target : Nat)
  | call (name : String)
  | ret
  | write
  | read

/-- The mnemonic of an arithmetic operation. -/
def Arith.mnemonic : Arith → String
  | .add => "ADD"
  | .sub => "SUB"
  | .mul => "MUL"
  | .div => "DIV"

/-- The mnemonic of a comparison. -/
def Order.mnemonic : Order → String
  | .lt => "CMPLT"
  | .le => "CMPLE"
  | .gt => "CMPGT"
  | .ge => "CMPGE"

namespace Operation

def mnemonic : Operation → String
  | .push _ => "PUSH"
  | .pop => "POP"
  | .dup => "DUP"
  | .nop => "NOP"
  | .arith a => a.mnemonic
  | .and => "AND"
  | .or => "OR"
  | .not => "NOT"
  | .order o => o.mnemonic
  | .equal => "CMPEQ"
  | .differ => "CMPNE"
  | .textLength => "SLEN"
  | .charAt => "GETC"
  | .concat => "CONCAT"
  | .toInt => "TOINT"
  | .toDouble => "TODBL"
  | .toText => "TOSTR"
  | .newStruct => "ALLOCS"
  | .addField _ => "ADDF"
  | .setField _ => "SETF"
  | .getField _ => "GETF"
  | .newArray => "ALLOCA"
  | .arrayLength => "ALEN"
  | .setIndex => "SETI"
  | .getIndex => "GETI"
  | .newGrid => "ALLOCA2D"
  | .setCell => "SETI2D"
  | .getCell => "GETI2D"

/-- The operand that an operation carries with it, as text. -/
def operandText : Operation → String
  | .push v => v.text
  | .addField field | .setField field | .getField field => field
  | _ => ""

end Operation

namespace Instr

def mnemonic : Instr → String
  | .op o => o.mnemonic
  | .load _ => "LOAD"
  | .store _ => "STORE"
  | .jump _ => "JMP"
  | .jumpUnless _ => "JMPF"
  | .call _ => "CALL"
  | .ret => "RET"
  | .write => "WRITE"
  | .read => "READ"

/-- The operand that an instruction carries with it, as text. -/
def operandText : Instr → String
  | .op o => o.operandText
  | .load n | .store n | .jump n | .jumpUnless n => toString n
  | .call name => name
  | _ => ""

/-- The text of an instruction: its mnemonic and its operand in parentheses. -/
def text (i : Instr) : String :=
  i.mnemonic ++ "(" ++ i.operandText ++ ")"

/-- The instructions that carry no operand with them. -/
def plain : List Instr :=
  ([.pop, .dup, .nop, .arith .add, .arith .sub, .arith .mul, .arith .div, .and, .or, .not, .order .lt, .order .le,
    .order .gt, .order .ge, .equal, .differ, .textLength, .charAt, .concat, .toInt, .toDouble, .toText, .newStruct,
    .newArray, .arrayLength, .setIndex, .getIndex, .newGrid, .setCell, .getCell] : List Operation).map .op
  ++ [.ret, .write, .read]

/-- The instruction with a mnemonic that takes no operand. -/
def plain? (mnemonic : String) : Option Instr :=
  plain.find? fun i => i.mnemonic == mnemonic

/-- The instruction with a mnemonic that takes a slot or a target. -/
def numbered? (mnemonic : String) (n : Nat) : Option Instr :=
  [Instr.load n, .store n, .jump n, .jumpUnless n].find? fun i => i.mnemonic == mnemonic

/-- The instruction with a mnemonic that takes a name. -/
def named? (mnemonic : String) (name : String) : Option Instr :=
  [Instr.call name, .op (.addField name), .op (.setField name), .op (.getField name)].find? fun i =>
    i.mnemonic == mnemonic

end Instr

end Bytecode
