import Bytecode.Tree.Reader
import Bytecode.Tree.Writer

/-! The library by which trees are exchanged as JSON. It derives readers and writers from the declarations, and it has
    conversions of its own between numbers in texts and doubles. -/

namespace Bytecode.Tree

/-- A library that reads and writes the declared types. -/
structure Library where
  /-- Reads a value, given how many arrays and objects may still be opened. -/
  read : Reader
  /-- Reads a text. -/
  ofText? : (s : Shape) → String → Option s.Carrier
  /-- The double that a number in a text is converted to, which is infinite if it overflows. -/
  number : Text.Numeral → Float
  /-- What is written for a value. -/
  write : (s : Shape) → s.Carrier → Json
  /-- The text of what is written. -/
  toText : (s : Shape) → s.Carrier → String
  /-- The number that is written for a double, if there is one. -/
  numeral : Float → Option Text.Numeral

namespace Library
variable (L : Library)

/-- The program that a text spells. -/
def parse? (s : String) : Option Program :=
  L.ofText? (.node .program) s

/-- What is written for a program. -/
def json (p : Program) : Json :=
  L.write (.node .program) p

/-- The text of a program. -/
def text (p : Program) : String :=
  L.toText (.node .program) p

end Library

/-! ### A library with nearest doubles -/

/-- How many arrays and objects may be opened inside each other. -/
def maxDepth : Nat := 127

/-- Reads values with no more than a number of levels. -/
def readLevels : Nat → Reader
  | 0 => readShape (fun _ _ _ => none) Text.Numeral.toDouble
  | levels + 1 => readShape (readLevels levels) Text.Numeral.toDouble

def Node.json : (n : Node) → n.Carrier → Json
  | .program => Program.json
  | .typeName => TypeName.json
  | .var => Variable.json
  | .struct => Struct.json
  | .function => Function.json
  | .stmt => Stmt.json
  | .declaration => Declaration.json
  | .assignment => Assignment.json
  | .branch => Branch.json
  | .call => fun c => record [("name", textJson c.1), ("args", .arr (exprsJson c.2))]
  | .segment => Segment.json
  | .subscript => Subscript.json
  | .operator => fun op => textJson op.name
  | .literal => Literal.json
  | .expr => Expr.json

def Shape.json : (s : Shape) → s.Carrier → Json
  | .bool, b => .bool b
  | .int, n => intJson n
  | .double, x => doubleJson x
  | .text, s => textJson s
  | .list item, vs => .arr (vs.map item.json)
  | .node n, v => n.json v
  | .option _, none => .null
  | .option n, some v => n.json v

/-- The library that reads a number as the nearest double and writes the fewest digits. -/
def Library.nearest : Library where
  read depth := readLevels depth depth
  ofText? s t := (Json.parse? t).bind (readLevels maxDepth maxDepth s)
  number := Text.Numeral.toDouble
  write := Shape.json
  toText s v := (s.json v).text
  numeral := doubleNumeral?

/-- The program that a text spells. -/
def Program.parse? (s : String) : Option Program :=
  Library.nearest.parse? s

/-- An operator by itself. -/
def readOperator (depth : Nat) (j : Json) : Option Operator :=
  Library.nearest.read depth (.node .operator) j

end Bytecode.Tree
