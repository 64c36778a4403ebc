import Bytecode.Lowering.Expr

/-! The code of statements. Jumps name the index of an instruction in the code of the function, so the code of a
    statement is made for the index at which it starts. -/

namespace Bytecode.Lowering

/-- The code of a declaration: the variable is known only behind its first value. -/
def declareCode (layouts : Layouts) (scope : Scope) (d : Tree.Declaration) : Except Error (List Instr × Scope) := do
  let init ← exprCode layouts scope d.init
  return (init ++ [.store scope.next], scope.declare d.var.name)

/-- The code of a call whose result is not used; only writing leaves no result. -/
def callCode (layouts : Layouts) (scope : Scope) (name : String) (args : List Tree.Expr) :
    Except Error (List Instr) := do
  let args ← argsCode layouts scope args
  return args ++ callInstr name :: (if name = "print" then [] else [.op .pop])

/-- A loop: a condition and a body, at an index. -/
def loopCode (start : Nat) (condition body : List Instr) : List Instr :=
  condition ++ .jumpUnless (start + condition.length + body.length + 2) :: body ++ [.jump start, .op .nop]

/-- Conditions and bodies one after the other, at an index: a condition that fails leads to the next one, and a body
that was executed leads to the exit. -/
def chainCode (start exit : Nat) : List (List Instr × List Instr) → List Instr
  | [] => []
  | (condition, body) :: rest =>
    let next := start + condition.length + body.length + 2
    condition ++ .jumpUnless next :: body ++ .jump exit :: chainCode next exit rest

/-- The length of conditions and bodies with their jumps. -/
def chainLength : List (List Instr × List Instr) → Nat
  | [] => 0
  | branch :: rest => branch.1.length + branch.2.length + 2 + chainLength rest

mutual

/-- The code of a statement at an index, and the scope behind it. -/
def stmtCode (layouts : Layouts) (scope : Scope) (start : Nat) : Tree.Stmt → Except Error (List Instr × Scope)
  | .declare d => declareCode layouts scope d
  | .assign a => do
    let code ← assignCode layouts scope a
    return (code, scope)
  | .call name args => do
    let code ← callCode layouts scope name args
    return (code, scope)
  | .choose first others otherwise => do
    let (branch, scope) ← branchCode layouts scope start first
    let (branches, scope) ← branchesCode layouts scope (start + chainLength [branch]) others
    let chain := branch :: branches
    let (otherwise, scope) ← stmtsCode layouts scope.enter (start + chainLength chain) otherwise
    let exit := start + chainLength chain + otherwise.length
    return (chainCode start exit chain ++ otherwise ++ [.op .nop], scope.leave)
  | .loop condition body => do
    let condition ← exprCode layouts scope condition
    let (body, scope) ← stmtsCode layouts scope.enter (start + condition.length + 1) body
    return (loopCode start condition body, scope.leave)
  | .count init condition step body => do
    let (init, scope) ← declareCode layouts scope.enter init
    let start := start + init.length
    let condition ← exprCode layouts scope condition
    let (body, scope) ← stmtsCode layouts scope.enter (start + condition.length + 1) body
    let scope := scope.leave
    let step ← assignCode layouts scope step
    return (init ++ loopCode start condition (body ++ step), scope.leave)
  | .ret e => do
    let code ← exprCode layouts scope e
    return (code ++ [.ret], scope)

/-- The code of statements one after the other at an index, and the scope behind them. -/
def stmtsCode (layouts : Layouts) (scope : Scope) (start : Nat) : List Tree.Stmt → Except Error (List Instr × Scope)
  | [] => .ok ([], scope)
  | s :: rest => do
    let (first, scope) ← stmtCode layouts scope start s
    let (rest, scope) ← stmtsCode layouts scope (start + first.length) rest
    return (first ++ rest, scope)

/-- The code of the condition and of the body of a branch at an index, and the scope behind it. -/
def branchCode (layouts : Layouts) (scope : Scope) (start : Nat) :
    Tree.Branch → Except Error ((List Instr × List Instr) × Scope)
  | .mk condition body => do
    let condition ← exprCode layouts scope condition
    let (body, scope) ← stmtsCode layouts scope.enter (start + condition.length + 1) body
    return ((condition, body), scope.leave)

/-- The code of branches one after the other at an index, and the scope behind them. -/
def branchesCode (layouts : Layouts) (scope : Scope) (start : Nat) :
    List Tree.Branch → Except Error (List (List Instr × List Instr) × Scope)
  | [] => .ok ([], scope)
  | b :: rest => do
    let (first, scope) ← branchCode layouts scope start b
    let (rest, scope) ← branchesCode layouts scope (start + chainLength [first]) rest
    return (first :: rest, scope)

end

end Bytecode.Lowering
