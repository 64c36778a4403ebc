import Bytecode.Json.Basic
import Bytecode.Tree
import Mathlib.Data.List.Forall2

/-! The spellings of trees. A record is an object with its fields in any order, among which there may be members with other
    names, or an array of its fields in order; a field with a default may be left out. A spelling says which JSON values
    stand for a part of a tree if no more than a number of arrays and objects are open inside each other, where what stands
    under the other names does not count, and they stand for it all the more if more may be open. The doubles that numbers
    stand for are given. -/

namespace Bytecode.Tree
open Text

/-! ### Fields -/

/-- The members of an object for the fields that are present. -/
def presentMembers (names : List String) (values : List (Option Json)) : List (Option String × Json) :=
  (names.zip values).filterMap fun field => field.2.map fun j => (some field.1, j)

/-- The values of the fields with the given names, each present or not. -/
inductive Fields (names : List String) : Json → List (Option Json) → Prop where
  | object {members others : List (Option String × Json)} {values : List (Option Json)}
      (complete : values.length = names.length) (unknown : ∀ m ∈ others, ∃ name, m.1 = some name ∧ name ∉ names)
      (order : members.Perm (presentMembers names values ++ others)) : Fields names (.obj members) values
  | array {items : List Json} {absent : Nat} (complete : items.length + absent = names.length) :
      Fields names (.arr items) (items.map some ++ List.replicate absent none)

/-! ### Spellings -/

/-- The JSON values that stand for something, given how many arrays and objects may be opened inside each other. -/
structure Spelling where
  Stands : Nat → Json → Prop
  mono : ∀ {m n : Nat} {j : Json}, m ≤ n → Stands m j → Stands n j

instance : CoeFun Spelling fun _ => Nat → Json → Prop :=
  ⟨Spelling.Stands⟩

/-- A field of a record. It may be left out if it has its default. -/
structure Field where
  name : String
  default : Prop
  spelling : Spelling

namespace Field

def required (name : String) (spelling : Spelling) : Field :=
  ⟨name, False, spelling⟩

def optional (name : String) (default : Prop) (spelling : Spelling) : Field :=
  ⟨name, default, spelling⟩

/-- The value of a field. -/
def Holds (f : Field) (depth : Nat) : Option Json → Prop
  | none => f.default
  | some j => f.spelling depth j

theorem Holds.mono {f : Field} {m n : Nat} (hle : m ≤ n) {value : Option Json} (h : f.Holds m value) :
    f.Holds n value := by
  cases value with
  | none => exact h
  | some j => exact f.spelling.mono hle h

end Field

namespace Spelling

/-- What opens no array and no object. -/
def scalar (stands : Json → Prop) : Spelling where
  Stands _ j := stands j
  mono _ h := h

@[simp] theorem scalar_iff {stands : Json → Prop} {depth : Nat} {j : Json} : scalar stands depth j ↔ stands j :=
  Iff.rfl

def text (s : String) : Spelling :=
  scalar fun j => j = .str (some s)

def bool (b : Bool) : Spelling :=
  scalar fun j => j = .bool b

def null : Spelling :=
  scalar fun j => j = .null

/-- An integer is a number without fraction and exponent, with a minus or no sign. There is no negative zero. -/
def int (n : Int64) : Spelling :=
  scalar fun j => ∃ k : Numeral, j = .num k ∧ k.fraction = [] ∧ k.exponent = none ∧
    (k.negative = false ∧ n.toInt = Nat.ofDigitChars 10 k.whole 0 ∨
      k.negative = true ∧ n.toInt = -Nat.ofDigitChars 10 k.whole 0 ∧ n.toInt ≠ 0)

/-- A double is any number that is converted to it and does not overflow. -/
def double (number : Numeral → Float) (x : Float) : Spelling :=
  scalar fun j => ∃ k : Numeral, j = .num k ∧ number k = x ∧ Double.isFinite x = true

/-- A name by itself is a text, or an object with one member of that name which is null. -/
def unit (name : String) : Spelling where
  Stands depth j := j = .str (some name) ∨ 0 < depth ∧ j = .obj [(some name, .null)]
  mono hle := Or.imp_right (And.imp_left fun hpos => Nat.lt_of_lt_of_le hpos hle)

/-- An object with one member of a name. -/
def variant (name : String) (body : Spelling) : Spelling where
  Stands depth j := ∃ n value, depth = n + 1 ∧ j = .obj [(some name, value)] ∧ body n value
  mono := by
    rintro _ n j hle ⟨m, value, rfl, hj, hbody⟩
    exact ⟨n - 1, value, by omega, hj, body.mono (by omega) hbody⟩

def list (items : List Spelling) : Spelling where
  Stands depth j := ∃ n values, depth = n + 1 ∧ j = .arr values ∧
    List.Forall₂ (fun item value => item.Stands n value) items values
  mono := by
    rintro _ n j hle ⟨m, values, rfl, hj, hitems⟩
    exact ⟨n - 1, values, by omega, hj, hitems.imp fun item _ => item.mono (by omega)⟩

def record (fields : List Field) : Spelling where
  Stands depth j := ∃ n values, depth = n + 1 ∧ Fields (fields.map Field.name) j values ∧
    List.Forall₂ (fun field value => field.Holds n value) fields values
  mono := by
    rintro _ n j hle ⟨m, values, rfl, hj, hfields⟩
    exact ⟨n - 1, values, by omega, hj, hfields.imp fun _ _ => Field.Holds.mono (by omega)⟩

end Spelling

/-! ### Trees -/

def TypeName.spelling (t : TypeName) : Spelling :=
  .record [.required "name" (.text t.name), .optional "is_array" (t.isArray = false) (.bool t.isArray)]

def Variable.spelling (v : Variable) : Spelling :=
  .record [.required "name" (.text v.name), .required "data_type" v.type.spelling]

def Struct.spelling (s : Struct) : Spelling :=
  .record [.required "name" (.text s.name), .required "fields" (.list (s.fields.map Variable.spelling))]

def Operator.spelling : Operator → Spelling
  | .add => .unit "add"
  | .sub => .unit "sub"
  | .mul => .unit "mul"
  | .div => .unit "div"
  | .eq => .unit "eq"
  | .ne => .unit "ne"
  | .lt => .unit "lt"
  | .le => .unit "le"
  | .gt => .unit "gt"
  | .ge => .unit "ge"
  | .and => .unit "and"
  | .or => .unit "or"

section
variable (number : Numeral → Float)

def Literal.spelling : Literal → Spelling
  | .int n => .variant "int" (.int n)
  | .double x => .variant "double" (.double number x)
  | .bool b => .variant "bool" (.bool b)
  | .str s => .variant "str" (.text s)
  | .char s => .variant "char" (.text s)
  | .null => .unit "null"

mutual

def Expr.spelling : Expr → Spelling
  | .literal l => .variant "literal" (l.spelling number)
  | .path segments => .variant "path" (.list (segmentSpellings segments))
  | .call name args =>
    .variant "call" (.record [.required "name" (.text name), .optional "args" (args = []) (.list (exprSpellings args))])
  | .newArray type size =>
    .variant "new_array" (.record [.required "elem_type" (.text type), .required "size" size.spelling])
  | .newStruct name => .variant "new_struct" (.record [.required "name" (.text name)])
  | .binary op left right =>
    .variant "binary"
      (.record [.required "op" op.spelling, .required "left" left.spelling, .required "right" right.spelling])
  | .not e => .variant "not" e.spelling

def exprSpellings : List Expr → List Spelling
  | [] => []
  | e :: rest => e.spelling :: exprSpellings rest

def Subscript.spelling : Subscript → Spelling
  | .one index => .variant "one" index.spelling
  | .two row column => .variant "two" (.list [row.spelling, column.spelling])

/-- An absent subscript may also be null. -/
def Segment.spelling : Segment → Spelling
  | .plain name => .record [.required "name" (.text name), .optional "subscript" True .null]
  | .indexed name subscript => .record [.required "name" (.text name), .required "subscript" subscript.spelling]

def segmentSpellings : List Segment → List Spelling
  | [] => []
  | s :: rest => s.spelling :: segmentSpellings rest

end

@[simp] theorem exprSpellings_eq (es : List Expr) : exprSpellings number es = es.map (Expr.spelling number) := by
  induction es with
  | nil => rfl
  | cons e rest ih => rw [exprSpellings, ih, List.map_cons]

@[simp] theorem segmentSpellings_eq (segments : List Segment) :
    segmentSpellings number segments = segments.map (Segment.spelling number) := by
  induction segments with
  | nil => rfl
  | cons s rest ih => rw [segmentSpellings, ih, List.map_cons]

def Declaration.spelling (d : Declaration) : Spelling :=
  .record [.required "var" d.var.spelling, .required "init" (d.init.spelling number)]

def Assignment.spelling (a : Assignment) : Spelling :=
  .record [.required "target" (.list (a.target.map (Segment.spelling number))),
    .required "value" (a.value.spelling number)]

mutual

def Stmt.spelling : Stmt → Spelling
  | .declare d => .variant "var_decl" (d.spelling number)
  | .assign a => .variant "assign" (a.spelling number)
  | .call name args =>
    .variant "call"
      (.record [.required "name" (.text name), .optional "args" (args = []) (.list (args.map (Expr.spelling number)))])
  | .choose first others otherwise =>
    .variant "if"
      (.record [.required "if_part" first.spelling, .optional "else_ifs" (others = []) (.list (branchSpellings others)),
        .optional "else_body" (otherwise = []) (.list (stmtSpellings otherwise))])
  | .loop condition body =>
    .variant "while"
      (.record [.required "condition" (condition.spelling number), .required "body" (.list (stmtSpellings body))])
  | .count init condition step body =>
    .variant "for"
      (.record [.required "init" (init.spelling number), .required "condition" (condition.spelling number),
        .required "step" (step.spelling number), .required "body" (.list (stmtSpellings body))])
  | .ret e => .variant "return" (e.spelling number)

def Branch.spelling : Branch → Spelling
  | .mk condition body =>
    .record [.required "condition" (condition.spelling number), .required "body" (.list (stmtSpellings body))]

def branchSpellings : List Branch → List Spelling
  | [] => []
  | b :: rest => b.spelling :: branchSpellings rest

def stmtSpellings : List Stmt → List Spelling
  | [] => []
  | s :: rest => s.spelling :: stmtSpellings rest

end

@[simp] theorem branchSpellings_eq (branches : List Branch) :
    branchSpellings number branches = branches.map (Branch.spelling number) := by
  induction branches with
  | nil => rfl
  | cons b rest ih => rw [branchSpellings, ih, List.map_cons]

@[simp] theorem stmtSpellings_eq (stmts : List Stmt) : stmtSpellings number stmts = stmts.map (Stmt.spelling number) := by
  induction stmts with
  | nil => rfl
  | cons s rest ih => rw [stmtSpellings, ih, List.map_cons]

def Function.spelling (f : Function) : Spelling :=
  .record [.required "name" (.text f.name), .required "return_type" f.result.spelling,
    .optional "params" (f.params = []) (.list (f.params.map Variable.spelling)),
    .required "body" (.list (f.body.map (Stmt.spelling number)))]

/-- The spellings of a program. -/
def Program.spelling (p : Program) : Spelling :=
  .record [.optional "structs" (p.structs = []) (.list (p.structs.map Struct.spelling)),
    .required "functions" (.list (p.functions.map (Function.spelling number)))]

end

end Bytecode.Tree
