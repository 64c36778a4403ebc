import Bytecode.Instr
import Bytecode.Lowering.Scope
import Bytecode.Text.Escape

/-! The code of expressions and assignments. The code of an expression leaves its value on top of the operands. It holds
    no jumps, so that it is the same wherever it stands. -/

namespace Bytecode.Lowering

/-- The instruction of a function that every program knows. -/
def builtin? : String → Option Instr
  | "print" => some .write
  | "input" => some .read
  | "get" => some (.op .charAt)
  | "length" => some (.op .textLength)
  | "length@array" => some (.op .arrayLength)
  | "to_string" => some (.op .toText)
  | "to_int" => some (.op .toInt)
  | "to_double" => some (.op .toDouble)
  | "concat" => some (.op .concat)
  | _ => none

/-- The instruction that a call comes down to behind its arguments. -/
def callInstr (name : String) : Instr :=
  (builtin? name).getD (.call name)

/-- The value of a literal, with its escapes resolved. -/
def literalValue : Tree.Literal → Value
  | .int n => .int n
  | .double x => .double x
  | .bool b => .bool b
  | .str s => .str (Text.unescape s)
  | .char s => .str (Text.unescape s)
  | .null => .null

def operatorOperation : Tree.Operator → Operation
  | .add => .arith .add
  | .sub => .arith .sub
  | .mul => .arith .mul
  | .div => .arith .div
  | .eq => .equal
  | .ne => .differ
  | .lt => .order .lt
  | .le => .order .le
  | .gt => .order .gt
  | .ge => .order .ge
  | .and => .and
  | .or => .or

/-- Makes a struct and sets each of its fields to null. -/
def newStructCode (fields : List String) : List Instr :=
  .op .newStruct :: fields.flatMap fun f =>
    [.op .dup, .op (.addField f), .op .dup, .op (.push .null), .op (.setField f)]

/-- Reads the element that a subscript stands for. -/
def elementGet : Tree.Subscript → Operation
  | .one _ => .getIndex
  | .two .. => .getCell

/-- Writes the element that a subscript stands for. -/
def elementSet : Tree.Subscript → Operation
  | .one _ => .setIndex
  | .two .. => .setCell

mutual

/-- The code of an expression. -/
def exprCode (layouts : Layouts) (scope : Scope) : Tree.Expr → Except Error (List Instr)
  | .literal l => .ok [.op (.push (literalValue l))]
  | .path [] => .error .emptyPath
  | .path (base :: rest) => do
    let slot ← scope.slot base.name
    let element ← elementCode layouts scope base
    let fields ← fieldsCode layouts scope rest
    return .load slot :: element ++ fields
  | .call name args => do
    let code ← argsCode layouts scope args
    return code ++ [callInstr name]
  | .newArray _ (.one length) => do
    let length ← exprCode layouts scope length
    return length ++ [.op (.push .null), .op .newArray]
  | .newArray _ (.two rows columns) => do
    let columns ← exprCode layouts scope columns
    let rows ← exprCode layouts scope rows
    return columns ++ rows ++ [.op (.push .null), .op .newGrid]
  | .newStruct name => do
    let fields ← layouts.fields name
    return newStructCode fields
  | .binary op left right => do
    let left ← exprCode layouts scope left
    let right ← exprCode layouts scope right
    return left ++ right ++ [.op (operatorOperation op)]
  | .not e => do
    let code ← exprCode layouts scope e
    return code ++ [.op .not]

/-- The code of expressions one after the other. -/
def argsCode (layouts : Layouts) (scope : Scope) : List Tree.Expr → Except Error (List Instr)
  | [] => .ok []
  | e :: rest => do
    let first ← exprCode layouts scope e
    let rest ← argsCode layouts scope rest
    return first ++ rest

/-- The code of the one or two indices of a subscript. -/
def indicesCode (layouts : Layouts) (scope : Scope) : Tree.Subscript → Except Error (List Instr)
  | .one index => exprCode layouts scope index
  | .two row column => do
    let row ← exprCode layouts scope row
    let column ← exprCode layouts scope column
    return row ++ column

/-- The code that goes from what a segment names to its element, if it has a subscript. -/
def elementCode (layouts : Layouts) (scope : Scope) : Tree.Segment → Except Error (List Instr)
  | .plain _ => .ok []
  | .indexed _ subscript => do
    let indices ← indicesCode layouts scope subscript
    return indices ++ [.op (elementGet subscript)]

/-- The code that goes through fields one after the other. -/
def fieldsCode (layouts : Layouts) (scope : Scope) : List Tree.Segment → Except Error (List Instr)
  | [] => .ok []
  | segment :: rest => do
    let element ← elementCode layouts scope segment
    let rest ← fieldsCode layouts scope rest
    return .op (.getField segment.name) :: element ++ rest

end

/-- The code that sets the element of an array on top of the operands. -/
def setElementCode (layouts : Layouts) (scope : Scope) (subscript : Tree.Subscript) (value : Tree.Expr) :
    Except Error (List Instr) := do
  let indices ← indicesCode layouts scope subscript
  let value ← exprCode layouts scope value
  return indices ++ value ++ [.op (elementSet subscript)]

/-- The code that goes from a struct on top of the operands through fields and sets the last one or its element. -/
def setFieldCode (layouts : Layouts) (scope : Scope) (value : Tree.Expr) :
    Tree.Segment → List Tree.Segment → Except Error (List Instr)
  | .plain name, [] => do
    let value ← exprCode layouts scope value
    return value ++ [.op (.setField name)]
  | .indexed name subscript, [] => do
    let code ← setElementCode layouts scope subscript value
    return .op (.getField name) :: code
  | segment, next :: rest => do
    let element ← elementCode layouts scope segment
    let code ← setFieldCode layouts scope value next rest
    return .op (.getField segment.name) :: element ++ code

/-- The code of an assignment. -/
def assignCode (layouts : Layouts) (scope : Scope) (a : Tree.Assignment) : Except Error (List Instr) :=
  match a.target with
  | [] => .error .emptyPath
  | [.plain name] => do
    let slot ← scope.slot name
    let value ← exprCode layouts scope a.value
    return value ++ [.store slot]
  | [.indexed name subscript] => do
    let slot ← scope.slot name
    let code ← setElementCode layouts scope subscript a.value
    return .load slot :: code
  | base :: next :: rest => do
    let slot ← scope.slot base.name
    let element ← elementCode layouts scope base
    let code ← setFieldCode layouts scope a.value next rest
    return .load slot :: element ++ code

end Bytecode.Lowering
