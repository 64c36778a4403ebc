import Bytecode.Tree

/-! How trees are exchanged as JSON: the shapes of values, and for every declared type its fields or its variants. A field
    may have a default for when it is left out, and may itself be left out when it is written. -/

namespace Bytecode.Tree

/-- A function or builtin call: its name and its arguments. -/
abbrev Call := String × List Expr

/-- The declared types. -/
inductive Node where
  | program
  | typeName
  | var
  | struct
  | function
  | stmt
  | declaration
  | assignment
  | branch
  | call
  | segment
  | subscript
  | operator
  | literal
  | expr

/-- The values of a declared type. -/
abbrev Node.Carrier : Node → Type
  | .program => Program
  | .typeName => TypeName
  | .var => Variable
  | .struct => Struct
  | .function => Function
  | .stmt => Stmt
  | .declaration => Declaration
  | .assignment => Assignment
  | .branch => Branch
  | .call => Call
  | .segment => Segment
  | .subscript => Subscript
  | .operator => Operator
  | .literal => Literal
  | .expr => Expr

/-- The shapes of fields and of the parts of variants. -/
inductive Shape where
  | bool
  | int
  | double
  | text
  | list (item : Shape)
  | node (n : Node)
  | option (n : Node)

/-- The values of a shape. -/
abbrev Shape.Carrier : Shape → Type
  | .bool => Bool
  | .int => Int64
  | .double => Float
  | .text => String
  | .list item => List item.Carrier
  | .node n => n.Carrier
  | .option n => Option n.Carrier

/-- A declared field: its name, its shape, the value that it has if it is left out, and the values with which it is not
written. -/
structure FieldDecl where
  name : String
  shape : Shape
  default : Option shape.Carrier := none
  omitted : shape.Carrier → Bool := fun _ => false

namespace FieldDecl

/-- A field that must be there. -/
abbrev required (name : String) (shape : Shape) : FieldDecl :=
  { name, shape }

/-- A field that may be left out. -/
abbrev optional (name : String) (shape : Shape) (default : shape.Carrier) : FieldDecl :=
  { name, shape, default := some default }

end FieldDecl

/-- Values for fields, in order. -/
abbrev FieldDecl.Values : List FieldDecl → Type
  | [] => Unit
  | f :: rest => f.shape.Carrier × Values rest

/-- Values for the parts of a tuple, in order. -/
abbrev Shape.Values : List Shape → Type
  | [] => Unit
  | s :: rest => s.Carrier × Values rest

/-- What a variant holds: nothing, one value, several values in order, or fields. -/
inductive Payload where
  | unit
  | one (s : Shape)
  | tuple (parts : List Shape)
  | record (fields : List FieldDecl)

abbrev Payload.Carrier : Payload → Type
  | .unit => Unit
  | .one s => s.Carrier
  | .tuple parts => Shape.Values parts
  | .record fields => FieldDecl.Values fields

/-- A variant of an enumeration, and the value that it makes of what it holds. -/
structure VariantDecl (α : Type) where
  name : String
  payload : Payload
  make : payload.Carrier → α

/-- A declaration: the fields of a record, or the variants of an enumeration. -/
inductive Decl (α : Type) where
  | record (fields : List FieldDecl) (make : FieldDecl.Values fields → α)
  | enum (variants : List (VariantDecl α))

/-- How each of the types is declared. -/
def Node.decl : (n : Node) → Decl n.Carrier
  | .program =>
    .record [.optional "structs" (.list (.node .struct)) [], .required "functions" (.list (.node .function))]
      fun v => ⟨v.1, v.2.1⟩
  | .typeName => .record [.required "name" .text, .optional "is_array" .bool false] fun v => ⟨v.1, v.2.1⟩
  | .var => .record [.required "name" .text, .required "data_type" (.node .typeName)] fun v => ⟨v.1, v.2.1⟩
  | .struct => .record [.required "name" .text, .required "fields" (.list (.node .var))] fun v => ⟨v.1, v.2.1⟩
  | .function =>
    .record [.required "name" .text, .required "return_type" (.node .typeName),
        .optional "params" (.list (.node .var)) [], .required "body" (.list (.node .stmt))]
      fun v => ⟨v.1, v.2.1, v.2.2.1, v.2.2.2.1⟩
  | .stmt =>
    .enum [
      ⟨"var_decl", .one (.node .declaration), .declare⟩,
      ⟨"assign", .one (.node .assignment), .assign⟩,
      ⟨"call", .one (.node .call), fun v => .call v.1 v.2⟩,
      ⟨"if", .record [.required "if_part" (.node .branch), .optional "else_ifs" (.list (.node .branch)) [],
          .optional "else_body" (.list (.node .stmt)) []],
        fun v => .choose v.1 v.2.1 v.2.2.1⟩,
      ⟨"while", .record [.required "condition" (.node .expr), .required "body" (.list (.node .stmt))],
        fun v => .loop v.1 v.2.1⟩,
      ⟨"for", .record [.required "init" (.node .declaration), .required "condition" (.node .expr),
          .required "step" (.node .assignment), .required "body" (.list (.node .stmt))],
        fun v => .count v.1 v.2.1 v.2.2.1 v.2.2.2.1⟩,
      ⟨"return", .one (.node .expr), .ret⟩]
  | .declaration => .record [.required "var" (.node .var), .required "init" (.node .expr)] fun v => ⟨v.1, v.2.1⟩
  | .assignment =>
    .record [.required "target" (.list (.node .segment)), .required "value" (.node .expr)] fun v => ⟨v.1, v.2.1⟩
  | .branch =>
    .record [.required "condition" (.node .expr), .required "body" (.list (.node .stmt))] fun v => .mk v.1 v.2.1
  | .call => .record [.required "name" .text, .optional "args" (.list (.node .expr)) []] fun v => (v.1, v.2.1)
  | .segment =>
    -- The only field that is not always written.
    .record [.required "name" .text,
        { name := "subscript", shape := .option .subscript, default := some none, omitted := Option.isNone }]
      fun v => v.2.1.elim (.plain v.1) (.indexed v.1)
  | .subscript =>
    .enum [
      ⟨"one", .one (.node .expr), .one⟩,
      ⟨"two", .tuple [.node .expr, .node .expr], fun v => .two v.1 v.2.1⟩]
  | .operator =>
    .enum [
      ⟨"add", .unit, fun _ => .add⟩, ⟨"sub", .unit, fun _ => .sub⟩, ⟨"mul", .unit, fun _ => .mul⟩,
      ⟨"div", .unit, fun _ => .div⟩, ⟨"eq", .unit, fun _ => .eq⟩, ⟨"ne", .unit, fun _ => .ne⟩,
      ⟨"lt", .unit, fun _ => .lt⟩, ⟨"le", .unit, fun _ => .le⟩, ⟨"gt", .unit, fun _ => .gt⟩,
      ⟨"ge", .unit, fun _ => .ge⟩, ⟨"and", .unit, fun _ => .and⟩, ⟨"or", .unit, fun _ => .or⟩]
  | .literal =>
    .enum [
      ⟨"int", .one .int, .int⟩,
      ⟨"double", .one .double, .double⟩,
      ⟨"bool", .one .bool, .bool⟩,
      ⟨"str", .one .text, .str⟩,
      ⟨"char", .one .text, .char⟩,
      ⟨"null", .unit, fun _ => .null⟩]
  | .expr =>
    .enum [
      ⟨"literal", .one (.node .literal), .literal⟩,
      ⟨"path", .one (.list (.node .segment)), .path⟩,
      ⟨"call", .one (.node .call), fun v => .call v.1 v.2⟩,
      ⟨"new_array", .record [.required "elem_type" .text, .required "size" (.node .subscript)],
        fun v => .newArray v.1 v.2.1⟩,
      ⟨"new_struct", .record [.required "name" .text], fun v => .newStruct v.1⟩,
      ⟨"binary", .record [.required "op" (.node .operator), .required "left" (.node .expr),
          .required "right" (.node .expr)],
        fun v => .binary v.1 v.2.1 v.2.2.1⟩,
      ⟨"not", .one (.node .expr), .not⟩]

end Bytecode.Tree
