import Bytecode.Double.Layout
import Bytecode.Double.Parts
import Bytecode.Json.Token
import Bytecode.Tree

/-! Syntax trees as JSON. Every field is written, in order, except for a subscript that is absent. -/

namespace Bytecode.Tree

/-- An object with named members. -/
def record (members : List (String × Json)) : Json :=
  .obj (members.map fun m => (some m.1, m.2))

/-- An object with a single member, whose name says which kind of node it is. -/
def variant (name : String) (body : Json) : Json :=
  record [(name, body)]

def textJson (s : String) : Json :=
  .str (some s)

/-- The numeral of an integer. -/
def intJson (n : Int64) : Json :=
  .num { negative := decide (n.toInt < 0), whole := Nat.toDigits 10 n.toInt.natAbs }

/-- The numeral of a decimal: positional if its leading digit stands between the fifth place behind the point and the
sixteenth before it, with at least one digit behind the point, and otherwise with an exponent behind its first digit. -/
def decimalNumeral (negative : Bool) (d : Double.Decimal) : Text.Numeral :=
  if -5 ≤ d.leading ∧ d.leading < 16 then
    let places := d.places
    { negative := negative, whole := places.whole
      fraction := if places.fraction.isEmpty then ['0'] else places.fraction }
  else
    let digits := Nat.toDigits 10 d.digits
    { negative := negative, whole := digits.take 1, fraction := digits.drop 1
      exponent := some ⟨decide (d.leading < 0), Nat.toDigits 10 d.leading.natAbs⟩ }

/-- The numeral of a double, with the fewest digits that read back as the same double, the even one of two equally near
ones; a double that is not finite has none. -/
def doubleNumeral? (x : Float) : Option Text.Numeral :=
  match Double.parts x with
  | .finite negative mantissa exponent => some (decimalNumeral negative (Double.shortest .even mantissa exponent))
  | _ => none

def doubleJson (x : Float) : Json :=
  (doubleNumeral? x).elim .null .num

def TypeName.json (t : TypeName) : Json :=
  record [("name", textJson t.name), ("is_array", .bool t.isArray)]

def Variable.json (v : Variable) : Json :=
  record [("name", textJson v.name), ("data_type", v.type.json)]

def Struct.json (s : Struct) : Json :=
  record [("name", textJson s.name), ("fields", .arr (s.fields.map Variable.json))]

/-- The name of an operator in a tree. -/
def Operator.name : Operator → String
  | .add => "add"
  | .sub => "sub"
  | .mul => "mul"
  | .div => "div"
  | .eq => "eq"
  | .ne => "ne"
  | .lt => "lt"
  | .le => "le"
  | .gt => "gt"
  | .ge => "ge"
  | .and => "and"
  | .or => "or"

def Literal.json : Literal → Json
  | .int n => variant "int" (intJson n)
  | .double x => variant "double" (doubleJson x)
  | .bool b => variant "bool" (.bool b)
  | .str s => variant "str" (textJson s)
  | .char s => variant "char" (textJson s)
  | .null => textJson "null"

mutual

def Expr.json : Expr → Json
  | .literal l => variant "literal" l.json
  | .path segments => variant "path" (.arr (segmentsJson segments))
  | .call name args => variant "call" (record [("name", textJson name), ("args", .arr (exprsJson args))])
  | .newArray type size => variant "new_array" (record [("elem_type", textJson type), ("size", size.json)])
  | .newStruct name => variant "new_struct" (record [("name", textJson name)])
  | .binary op left right =>
    variant "binary" (record [("op", textJson op.name), ("left", left.json), ("right", right.json)])
  | .not e => variant "not" e.json

def exprsJson : List Expr → List Json
  | [] => []
  | e :: rest => e.json :: exprsJson rest

def Subscript.json : Subscript → Json
  | .one index => variant "one" index.json
  | .two row column => variant "two" (.arr [row.json, column.json])

def Segment.json : Segment → Json
  | .plain name => record [("name", textJson name)]
  | .indexed name subscript => record [("name", textJson name), ("subscript", subscript.json)]

def segmentsJson : List Segment → List Json
  | [] => []
  | s :: rest => s.json :: segmentsJson rest

end

def Declaration.json (d : Declaration) : Json :=
  record [("var", d.var.json), ("init", d.init.json)]

def Assignment.json (a : Assignment) : Json :=
  record [("target", .arr (segmentsJson a.target)), ("value", a.value.json)]

mutual

def Stmt.json : Stmt → Json
  | .declare d => variant "var_decl" d.json
  | .assign a => variant "assign" a.json
  | .call name args => variant "call" (record [("name", textJson name), ("args", .arr (exprsJson args))])
  | .choose first others otherwise =>
    variant "if" (record [("if_part", first.json), ("else_ifs", .arr (branchesJson others)),
      ("else_body", .arr (stmtsJson otherwise))])
  | .loop condition body =>
    variant "while" (record [("condition", condition.json), ("body", .arr (stmtsJson body))])
  | .count init condition step body =>
    variant "for" (record [("init", init.json), ("condition", condition.json), ("step", step.json),
      ("body", .arr (stmtsJson body))])
  | .ret e => variant "return" e.json

def Branch.json : Branch → Json
  | .mk condition body => record [("condition", condition.json), ("body", .arr (stmtsJson body))]

def branchesJson : List Branch → List Json
  | [] => []
  | b :: rest => b.json :: branchesJson rest

def stmtsJson : List Stmt → List Json
  | [] => []
  | s :: rest => s.json :: stmtsJson rest

end

def Function.json (f : Function) : Json :=
  record [("name", textJson f.name), ("return_type", f.result.json), ("params", .arr (f.params.map Variable.json)),
    ("body", .arr (stmtsJson f.body))]

def Program.json (p : Program) : Json :=
  record [("structs", .arr (p.structs.map Struct.json)), ("functions", .arr (p.functions.map Function.json))]

/-- The text of a program. -/
def Program.text (p : Program) : String :=
  p.json.text

end Bytecode.Tree
