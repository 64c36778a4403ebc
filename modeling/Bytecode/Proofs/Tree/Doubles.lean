import Bytecode.Tree.Schema
import Mathlib.Tactic.Simproc.ExistsAndEq

/-! The doubles of a tree. Every value is made as its type is declared, and its doubles are those of what it is made of. -/

namespace Bytecode.Tree

/-! ### The doubles of a program -/

def Literal.doubles : Literal → List Float
  | .double x => [x]
  | _ => []

mutual

def Expr.doubles : Expr → List Float
  | .literal l => l.doubles
  | .path segments => segmentsDoubles segments
  | .call _ args => exprsDoubles args
  | .newArray _ size => size.doubles
  | .newStruct _ => []
  | .binary _ left right => left.doubles ++ right.doubles
  | .not e => e.doubles

def exprsDoubles : List Expr → List Float
  | [] => []
  | e :: rest => e.doubles ++ exprsDoubles rest

def Subscript.doubles : Subscript → List Float
  | .one index => index.doubles
  | .two row column => row.doubles ++ column.doubles

def Segment.doubles : Segment → List Float
  | .plain _ => []
  | .indexed _ subscript => subscript.doubles

def segmentsDoubles : List Segment → List Float
  | [] => []
  | s :: rest => s.doubles ++ segmentsDoubles rest

end

def Declaration.doubles (d : Declaration) : List Float :=
  d.init.doubles

def Assignment.doubles (a : Assignment) : List Float :=
  segmentsDoubles a.target ++ a.value.doubles

mutual

def Stmt.doubles : Stmt → List Float
  | .declare d => d.doubles
  | .assign a => a.doubles
  | .call _ args => exprsDoubles args
  | .choose first others otherwise => first.doubles ++ branchesDoubles others ++ stmtsDoubles otherwise
  | .loop condition body => condition.doubles ++ stmtsDoubles body
  | .count init condition step body => init.doubles ++ condition.doubles ++ step.doubles ++ stmtsDoubles body
  | .ret e => e.doubles

def Branch.doubles : Branch → List Float
  | .mk condition body => condition.doubles ++ stmtsDoubles body

def branchesDoubles : List Branch → List Float
  | [] => []
  | b :: rest => b.doubles ++ branchesDoubles rest

def stmtsDoubles : List Stmt → List Float
  | [] => []
  | s :: rest => s.doubles ++ stmtsDoubles rest

end

/-- The double literals of a program. -/
def Program.doubles (p : Program) : List Float :=
  p.functions.flatMap fun f => stmtsDoubles f.body

/-! ### The doubles of a shape -/

def Node.doubles : (n : Node) → n.Carrier → List Float
  | .program, p => p.doubles
  | .function, f => stmtsDoubles f.body
  | .stmt, s => s.doubles
  | .declaration, d => d.doubles
  | .assignment, a => a.doubles
  | .branch, b => b.doubles
  | .call, c => exprsDoubles c.2
  | .segment, s => s.doubles
  | .subscript, s => s.doubles
  | .literal, l => l.doubles
  | .expr, e => e.doubles
  | .typeName, _ | .var, _ | .struct, _ | .operator, _ => []

def Shape.doubles : (s : Shape) → s.Carrier → List Float
  | .double, x => [x]
  | .list item, vs => vs.flatMap item.doubles
  | .node n, v => n.doubles v
  | .option n, v => v.elim [] n.doubles
  | .bool, _ | .int, _ | .text, _ => []

def FieldDecl.doubles : (fields : List FieldDecl) → FieldDecl.Values fields → List Float
  | [], _ => []
  | f :: fields, v => f.shape.doubles v.1 ++ doubles fields v.2

def Shape.partDoubles : (parts : List Shape) → Shape.Values parts → List Float
  | [], _ => []
  | s :: parts, v => s.doubles v.1 ++ partDoubles parts v.2

def Payload.doubles : (p : Payload) → p.Carrier → List Float
  | .unit, _ => []
  | .one s, v => s.doubles v
  | .tuple parts, v => Shape.partDoubles parts v
  | .record fields, v => FieldDecl.doubles fields v

/-- A value is made as its type is declared, and its doubles are those of what it is made of. -/
def Decl.Makes {α : Type} (doubles : α → List Float) (a : α) : Decl α → Prop
  | .record fields make => ∃ v, a = make v ∧ FieldDecl.doubles fields v = doubles a
  | .enum variants => ∃ variant ∈ variants, ∃ v, a = variant.make v ∧ variant.payload.doubles v = doubles a

theorem exprsDoubles_eq (es : List Expr) : exprsDoubles es = es.flatMap Expr.doubles := by
  induction es with
  | nil => rfl
  | cons e rest ih => rw [exprsDoubles, ih, List.flatMap_cons]

theorem segmentsDoubles_eq (segments : List Segment) : segmentsDoubles segments = segments.flatMap Segment.doubles := by
  induction segments with
  | nil => rfl
  | cons s rest ih => rw [segmentsDoubles, ih, List.flatMap_cons]

theorem branchesDoubles_eq (branches : List Branch) : branchesDoubles branches = branches.flatMap Branch.doubles := by
  induction branches with
  | nil => rfl
  | cons b rest ih => rw [branchesDoubles, ih, List.flatMap_cons]

theorem stmtsDoubles_eq (stmts : List Stmt) : stmtsDoubles stmts = stmts.flatMap Stmt.doubles := by
  induction stmts with
  | nil => rfl
  | cons s rest ih => rw [stmtsDoubles, ih, List.flatMap_cons]

theorem operator_makes (op : Operator) : (Node.decl .operator).Makes (Node.doubles .operator) op := by
  cases op <;> simp [Node.decl, Decl.Makes, Payload.doubles, Node.doubles]

theorem literal_makes (l : Literal) : (Node.decl .literal).Makes (Node.doubles .literal) l := by
  cases l <;> simp [Node.decl, Decl.Makes, Payload.doubles, Shape.doubles, Node.doubles, Literal.doubles]

theorem subscript_makes (s : Subscript) : (Node.decl .subscript).Makes (Node.doubles .subscript) s := by
  cases s <;>
    simp [Node.decl, Decl.Makes, Payload.doubles, Shape.doubles, Shape.partDoubles, Node.doubles, Subscript.doubles]

theorem segment_makes (s : Segment) : (Node.decl .segment).Makes (Node.doubles .segment) s := by
  cases s with
  | plain name => exact ⟨(name, none, ()), rfl, rfl⟩
  | indexed name subscript =>
    refine ⟨(name, some subscript, ()), rfl, ?_⟩
    simp [FieldDecl.doubles, Shape.doubles, Node.doubles, Segment.doubles]

theorem expr_makes (e : Expr) : (Node.decl .expr).Makes (Node.doubles .expr) e := by
  cases e <;>
    simp [Node.decl, Decl.Makes, Payload.doubles, Shape.doubles, FieldDecl.doubles, Node.doubles, Expr.doubles,
      exprsDoubles_eq, segmentsDoubles_eq]

theorem stmt_makes (s : Stmt) : (Node.decl .stmt).Makes (Node.doubles .stmt) s := by
  cases s <;>
    simp [Node.decl, Decl.Makes, Payload.doubles, Shape.doubles, FieldDecl.doubles, Node.doubles, Stmt.doubles,
      exprsDoubles_eq, branchesDoubles_eq, stmtsDoubles_eq]

theorem Node.makes (n : Node) (v : n.Carrier) : n.decl.Makes n.doubles v := by
  cases n with
  | operator => exact operator_makes v
  | literal => exact literal_makes v
  | subscript => exact subscript_makes v
  | segment => exact segment_makes v
  | expr => exact expr_makes v
  | stmt => exact stmt_makes v
  | program | typeName | var | struct | function | declaration | assignment | branch | call =>
    cases v
    simp [Node.decl, Decl.Makes, FieldDecl.doubles, Shape.doubles, Node.doubles, Program.doubles, Declaration.doubles,
      Assignment.doubles, Branch.doubles, exprsDoubles_eq, segmentsDoubles_eq, stmtsDoubles_eq]

end Bytecode.Tree
