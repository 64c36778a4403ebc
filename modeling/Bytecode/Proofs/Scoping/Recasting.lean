import Bytecode.Proofs.Scoping.Mentions

/-! Names that do not matter to scoping. A program may be recast: its fields get other names, its calls go to other functions,
    which may take another number of arguments, and its types are replaced by others. It mentions the same as before. -/

namespace Bytecode.Scoping

/-- Other fields, called functions and types. -/
structure Recasting where
  field : String → String
  callee : String → String
  type : Tree.TypeName → Tree.TypeName
  /-- The type of the elements of new arrays. -/
  element : String → String

namespace Recasting
variable (r : Recasting)

/-- Only the type of a variable changes. -/
def var (v : Tree.Variable) : Tree.Variable :=
  ⟨v.name, r.type v.type⟩

mutual

def expr : Tree.Expr → Tree.Expr
  | .literal l => .literal l
  | .path [] => .path []
  | .path (base :: rest) => .path (start base :: fields rest)
  | .call name args => .call (r.callee name) (exprs args)
  | .newArray type (.one length) => .newArray (r.element type) (.one (expr length))
  | .newArray type (.two rows columns) => .newArray (r.element type) (.two (expr rows) (expr columns))
  | .newStruct name => .newStruct name
  | .binary op left right => .binary op (expr left) (expr right)
  | .not e => .not (expr e)

def exprs : List Tree.Expr → List Tree.Expr
  | [] => []
  | e :: rest => expr e :: exprs rest

def subscript : Tree.Subscript → Tree.Subscript
  | .one index => .one (expr index)
  | .two row column => .two (expr row) (expr column)

/-- The segment that starts a path keeps the name of its variable. -/
def start : Tree.Segment → Tree.Segment
  | .plain name => .plain name
  | .indexed name sub => .indexed name (subscript sub)

def fields : List Tree.Segment → List Tree.Segment
  | [] => []
  | .plain name :: rest => .plain (r.field name) :: fields rest
  | .indexed name sub :: rest => .indexed (r.field name) (subscript sub) :: fields rest

end

def declaration (d : Tree.Declaration) : Tree.Declaration :=
  ⟨r.var d.var, r.expr d.init⟩

def assignment (a : Tree.Assignment) : Tree.Assignment :=
  match a.target with
  | [] => ⟨[], r.expr a.value⟩
  | base :: rest => ⟨r.start base :: r.fields rest, r.expr a.value⟩

mutual

def stmt : Tree.Stmt → Tree.Stmt
  | .declare d => .declare (r.declaration d)
  | .assign a => .assign (r.assignment a)
  | .call name args => .call (r.callee name) (r.exprs args)
  | .choose first others otherwise => .choose (branch first) (branches others) (stmts otherwise)
  | .loop condition body => .loop (r.expr condition) (stmts body)
  | .count init condition step body =>
    .count (r.declaration init) (r.expr condition) (r.assignment step) (stmts body)
  | .ret e => .ret (r.expr e)

def stmts : List Tree.Stmt → List Tree.Stmt
  | [] => []
  | s :: rest => stmt s :: stmts rest

def branch : Tree.Branch → Tree.Branch
  | .mk condition body => .mk (r.expr condition) (stmts body)

def branches : List Tree.Branch → List Tree.Branch
  | [] => []
  | b :: rest => branch b :: branches rest

end

def struct (s : Tree.Struct) : Tree.Struct :=
  ⟨s.name, s.fields.map fun f => ⟨r.field f.name, r.type f.type⟩⟩

def function (f : Tree.Function) : Tree.Function :=
  ⟨f.name, r.type f.result, f.params.map r.var, r.stmts f.body⟩

def program (p : Tree.Program) : Tree.Program :=
  ⟨p.structs.map r.struct, p.functions.map r.function⟩

/-! ### The same mentions -/

theorem start_name (segment : Tree.Segment) : (r.start segment).name = segment.name := by
  cases segment <;> rfl

mutual

theorem expr_mentions : ∀ e : Tree.Expr, exprMentions (r.expr e) = exprMentions e
  | .literal _ => rfl
  | .path [] => rfl
  | .path (base :: rest) => by
    simp only [expr, exprMentions, start_name, start_mentions base, fields_mentions rest]
  | .call _ args => exprs_mentions args
  | .newArray _ (.one length) => expr_mentions length
  | .newArray _ (.two rows columns) => by
    simp only [expr, exprMentions, expr_mentions rows, expr_mentions columns]
  | .newStruct _ => rfl
  | .binary _ left right => by
    simp only [expr, exprMentions, expr_mentions left, expr_mentions right]
  | .not e => expr_mentions e

theorem exprs_mentions : ∀ args : List Tree.Expr, argsMentions (r.exprs args) = argsMentions args
  | [] => rfl
  | e :: rest => by
    simp only [exprs, argsMentions, expr_mentions e, exprs_mentions rest]

theorem subscript_mentions : ∀ sub : Tree.Subscript, subscriptMentions (r.subscript sub) = subscriptMentions sub
  | .one index => expr_mentions index
  | .two row column => by
    simp only [subscript, subscriptMentions, expr_mentions row, expr_mentions column]

theorem start_mentions : ∀ segment : Tree.Segment, segmentMentions (r.start segment) = segmentMentions segment
  | .plain _ => rfl
  | .indexed _ sub => subscript_mentions sub

theorem fields_mentions : ∀ segments : List Tree.Segment, segmentsMentions (r.fields segments) = segmentsMentions segments
  | [] => rfl
  | .plain _ :: rest => fields_mentions rest
  | .indexed _ sub :: rest => by
    simp only [fields, segmentsMentions, segmentMentions, subscript_mentions sub, fields_mentions rest]

end

theorem assignment_mentions (a : Tree.Assignment) : assignMentions (r.assignment a) = assignMentions a := by
  obtain ⟨target, value⟩ := a
  match target with
  | [] => simp only [assignment, assignMentions, expr_mentions]
  | [.plain name] => simp only [assignment, assignMentions, start, fields, expr_mentions]
  | [.indexed name sub] =>
    simp only [assignment, assignMentions, start, fields, segmentMentions, subscript_mentions, segmentsMentions,
      Tree.Segment.name, expr_mentions]
  | base :: next :: rest =>
    obtain ⟨next', hnext⟩ : ∃ next', r.fields (next :: rest) = next' :: r.fields rest := by
      cases next <;> exact ⟨_, rfl⟩
    show assignMentions ⟨r.start base :: r.fields (next :: rest), r.expr value⟩ = _
    rw [hnext, assignMentions_through, ← hnext, assignMentions_through, start_name, start_mentions, fields_mentions,
      expr_mentions]

theorem declaration_mentions (d : Tree.Declaration) : declareMentions (r.declaration d) = declareMentions d := by
  simp only [declareMentions, declaration, expr_mentions, var]

mutual

theorem stmt_mentions : ∀ s : Tree.Stmt, stmtMentions (r.stmt s) = stmtMentions s
  | .declare d => r.declaration_mentions d
  | .assign a => r.assignment_mentions a
  | .call _ args => r.exprs_mentions args
  | .choose first others otherwise => by
    simp only [stmt, stmtMentions, branch_mentions first, branches_mentions others, stmts_mentions otherwise]
  | .loop condition body => by
    simp only [stmt, stmtMentions, expr_mentions, stmts_mentions body]
  | .count init condition step body => by
    simp only [stmt, stmtMentions, declaration_mentions, expr_mentions, stmts_mentions body, assignment_mentions]
  | .ret e => r.expr_mentions e

theorem stmts_mentions : ∀ stmts : List Tree.Stmt, stmtsMentions (r.stmts stmts) = stmtsMentions stmts
  | [] => rfl
  | s :: rest => by
    simp only [stmts, stmtsMentions, stmt_mentions s, stmts_mentions rest]

theorem branch_mentions : ∀ b : Tree.Branch, branchMentions (r.branch b) = branchMentions b
  | .mk condition body => by
    simp only [branch, branchMentions, expr_mentions, stmts_mentions body]

theorem branches_mentions : ∀ bs : List Tree.Branch, branchesMentions (r.branches bs) = branchesMentions bs
  | [] => rfl
  | b :: rest => by
    simp only [branches, branchesMentions, branch_mentions b, branches_mentions rest]

end

theorem function_mentions (f : Tree.Function) : functionMentions (r.function f) = functionMentions f := by
  simp [functionMentions, function, stmts_mentions, paramMentions, var]

end Recasting
end Bytecode.Scoping
