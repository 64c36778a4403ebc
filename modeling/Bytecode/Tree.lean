/-! Syntax trees of checked programs. -/

namespace Bytecode.Tree

/-- A declared type: a name, or an array of what it names. -/
structure TypeName where
  name : String
  isArray : Bool := false
  deriving DecidableEq

/-- The type of arrays of what a name names. -/
def TypeName.arrayOf (name : String) : TypeName :=
  ⟨name, true⟩

/-- The type of functions without a result. -/
def TypeName.void : TypeName :=
  { name := "void" }

/-- A name with its type: a field, a parameter or a variable. -/
structure Variable where
  name : String
  type : TypeName
  deriving DecidableEq

/-- A struct with its fields. -/
structure Struct where
  name : String
  fields : List Variable
  deriving DecidableEq

/-- Operators with two operands. -/
inductive Operator where
  | add
  | sub
  | mul
  | div
  | eq
  | ne
  | lt
  | le
  | gt
  | ge
  | and
  | or
  deriving DecidableEq, Repr

/-- Literals. Texts and characters are kept as they were spelled, with their escapes. -/
inductive Literal where
  | int (n : Int64)
  | double (x : Float)
  | bool (b : Bool)
  | str (s : String)
  | char (s : String)
  | null

mutual

/-- Expressions. -/
inductive Expr where
  | literal (l : Literal)
  /-- The value of a variable, a field or an element. -/
  | path (segments : List Segment)
  | call (name : String) (args : List Expr)
  /-- A new array with one or two dimensions. -/
  | newArray (type : String) (size : Subscript)
  | newStruct (name : String)
  | binary (op : Operator) (left right : Expr)
  | not (e : Expr)

/-- The place of an element, or the size of an array, in one or two dimensions. -/
inductive Subscript where
  | one (index : Expr)
  | two (row column : Expr)

/-- A segment of a path: a name, or an element of what it names. -/
inductive Segment where
  | plain (name : String)
  | indexed (name : String) (subscript : Subscript)

end

/-- The name of a segment. -/
def Segment.name : Segment → String
  | .plain name => name
  | .indexed name _ => name

/-- The subscript of a segment. -/
def Segment.subscript? : Segment → Option Subscript
  | .plain _ => none
  | .indexed _ subscript => some subscript

/-- A variable and its first value. -/
structure Declaration where
  var : Variable
  init : Expr

/-- A path and the value assigned to it. -/
structure Assignment where
  target : List Segment
  value : Expr

mutual

/-- Statements. -/
inductive Stmt where
  | declare (d : Declaration)
  | assign (a : Assignment)
  | call (name : String) (args : List Expr)
  /-- A branch, further branches, and what happens if none is taken. -/
  | choose (first : Branch) (others : List Branch) (otherwise : List Stmt)
  | loop (condition : Expr) (body : List Stmt)
  /-- A loop with a variable of its own and a step behind each round. -/
  | count (init : Declaration) (condition : Expr) (step : Assignment) (body : List Stmt)
  | ret (e : Expr)

/-- A condition and what happens if it holds. -/
inductive Branch where
  | mk (condition : Expr) (body : List Stmt)

end

/-- A function. -/
structure Function where
  name : String
  result : TypeName
  params : List Variable := []
  body : List Stmt

/-- A program: its structs and its functions. -/
structure Program where
  structs : List Struct := []
  functions : List Function

namespace Expr

/-- The value of a variable. -/
def var (name : String) : Expr :=
  .path [.plain name]

end Expr

namespace Stmt

/-- Writes the value of an expression. -/
def print (e : Expr) : Stmt :=
  .call "print" [e]

end Stmt

end Bytecode.Tree
