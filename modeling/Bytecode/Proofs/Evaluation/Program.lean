import Bytecode.Proofs.Evaluation.Basic

/-! Direct evaluation of expressions, statements and programs, and the condition on calls under which it has a meaning
    everywhere: each call has as many arguments as its function takes, and writing is no expression. -/

namespace Bytecode.Evaluation

/-- The function of a program with a name. -/
def function? (p : Tree.Program) (name : String) : Option Tree.Function :=
  p.functions.find? fun f => f.name == name

/-- Where evaluation takes place: in a function of a program, with the field names of the structs that are known, a bound
for the rounds of a loop, and the values of calls. -/
structure Context where
  layouts : Lowering.Layouts
  program : Tree.Program
  function : String
  rounds : Nat
  call : Tree.Function → List Value → Effect Value

/-- The value of a call of any function. -/
def callValue (k : Context) (name : String) (args : List Value) : Effect Value :=
  if (builtinArity? name).isSome then builtinValue k.function name args
  else
    match function? k.program name with
    | some f => k.call f args
    | none => .ofExcept k.function (.error (.unknownFunction name))

/-! ### Expressions -/

mutual

/-- The value of an expression. -/
def exprValue (k : Context) (env : Env) : Tree.Expr → Effect Value
  | .literal l => pure (Lowering.literalValue l)
  | .path [] => .wrong
  | .path (base :: rest) => do
    let v ← .ofOption (env.find? base.name)
    let v ← elementValue k env v base
    fieldsValue k env v rest
  | .call name args => do
    let args ← argsValues k env args
    callValue k name args
  | .newArray _ (.one length) => do
    let length ← exprValue k env length
    .compute k.function fun heap => do
      let length ← length.needInt
      let change ← heap.newArray length .null
      return (.object heap.nextId, some change)
  | .newArray _ (.two rows columns) => do
    let columns ← exprValue k env columns
    let rows ← exprValue k env rows
    .compute k.function fun heap => do
      let rows ← rows.needInt
      let columns ← columns.needInt
      let change ← heap.newGrid rows columns .null
      return (.object heap.nextId, some change)
  | .newStruct name => do
    let fields ← .ofOption (k.layouts.get? name)
    let v ← .compute k.function fun heap => .ok (.object heap.nextId, some Heap.newStruct)
    addFields k.function v fields
    return v
  | .binary op left right => do
    let left ← exprValue k env left
    let right ← exprValue k env right
    .ofExcept k.function (operatorValue op left right)
  | .not e => do
    let v ← exprValue k env e
    .ofExcept k.function do
      let b ← v.needBool
      return .bool !b

/-- The values of expressions, from the first to the last. -/
def argsValues (k : Context) (env : Env) : List Tree.Expr → Effect (List Value)
  | [] => pure []
  | e :: rest => do
    let v ← exprValue k env e
    let vs ← argsValues k env rest
    return v :: vs

/-- The values of the indices of a subscript, the row before the column. -/
def indicesValues (k : Context) (env : Env) : Tree.Subscript → Effect Indices
  | .one index => do
    let index ← exprValue k env index
    return .one index
  | .two row column => do
    let row ← exprValue k env row
    let column ← exprValue k env column
    return .two row column

/-- The element of a value that a segment stands for, or the value itself if the segment has no subscript. -/
def elementValue (k : Context) (env : Env) (v : Value) : Tree.Segment → Effect Value
  | .plain _ => pure v
  | .indexed _ subscript => do
    let indices ← indicesValues k env subscript
    getElement k.function v indices

/-- The value behind fields one after the other. -/
def fieldsValue (k : Context) (env : Env) (v : Value) : List Tree.Segment → Effect Value
  | [] => pure v
  | segment :: rest => do
    let v ← getField k.function v segment.name
    let v ← elementValue k env v segment
    fieldsValue k env v rest

end

/-! ### Assignments -/

/-- Assigns to the element of a value. -/
def assignElement (k : Context) (env : Env) (v : Value) (subscript : Tree.Subscript) (value : Tree.Expr) :
    Effect Unit := do
  let indices ← indicesValues k env subscript
  let x ← exprValue k env value
  setElement k.function v x indices

/-- Assigns to what lies behind the fields of a value. -/
def assignField (k : Context) (env : Env) (value : Tree.Expr) : Value → Tree.Segment → List Tree.Segment → Effect Unit
  | v, .plain name, [] => do
    let x ← exprValue k env value
    setField k.function v name x
  | v, .indexed name subscript, [] => do
    let v ← getField k.function v name
    assignElement k env v subscript value
  | v, segment, next :: rest => do
    let v ← getField k.function v segment.name
    let v ← elementValue k env v segment
    assignField k env value v next rest

/-- The environment after an assignment. -/
def assign (k : Context) (env : Env) (a : Tree.Assignment) : Effect Env :=
  match a.target with
  | [] => .wrong
  | [.plain name] => do
    let _ ← .ofOption (env.find? name)
    let x ← exprValue k env a.value
    return env.set name x
  | [.indexed name subscript] => do
    let v ← .ofOption (env.find? name)
    assignElement k env v subscript a.value
    return env
  | base :: next :: rest => do
    let v ← .ofOption (env.find? base.name)
    let v ← elementValue k env v base
    assignField k env a.value v next rest
    return env

/-! ### Statements -/

/-- How statements come out: evaluation goes on in an environment, or the function returns a value. -/
inductive Flow where
  | next (env : Env)
  | returned (v : Value)

/-- What comes behind statements that do not return. -/
def Flow.andThen (flow : Flow) (k : Env → Effect Flow) : Effect Flow :=
  match flow with
  | .next env => k env
  | .returned v => pure (.returned v)

/-- What comes behind a block that does not return, once the block is closed. -/
def Flow.leave (flow : Flow) : Effect Flow :=
  flow.andThen fun env => pure (.next env.leave)

/-- The truth of a condition. -/
def condition (k : Context) (env : Env) (e : Tree.Expr) : Effect Bool := do
  let v ← exprValue k env e
  .ofExcept k.function v.needBool

/-- Repeats a body as long as a condition holds, in as many rounds as the bound allows. -/
def repeatWhile (test : Env → Effect Bool) (body : Env → Effect Flow) : Nat → Env → Effect Flow
  | 0, _ => .exhausted
  | rounds + 1, env => do
    let holds ← test env
    if holds then do
      let flow ← body env
      flow.andThen (repeatWhile test body rounds)
    else
      return .next env

/-- A call whose value is not used; writing is such a call and has no value. -/
def callAlone (k : Context) (name : String) (args : List Value) : Effect Unit :=
  if name = "print" then
    match args with
    | [v] => .write k.function v
    | _ => .wrong
  else do
    let _ ← callValue k name args
    return ()

mutual

/-- How a statement comes out. -/
def stmtFlow (k : Context) (env : Env) : Tree.Stmt → Effect Flow
  | .declare d => do
    let v ← exprValue k env d.init
    return .next (env.declare d.var.name v)
  | .assign a => do
    let env ← assign k env a
    return .next env
  | .call name args => do
    let args ← argsValues k env args
    callAlone k name args
    return .next env
  | .choose first others otherwise =>
    branchFlow k env first (branchesFlow k env others do
      let flow ← stmtsFlow k env.enter otherwise
      flow.leave)
  | .loop test body =>
    repeatWhile (fun env => condition k env test)
      (fun env => do
        let flow ← stmtsFlow k env.enter body
        flow.leave)
      k.rounds env
  | .count init test step body => do
    let v ← exprValue k env.enter init.init
    let flow ← repeatWhile (fun env => condition k env test)
      (fun env => do
        let flow ← stmtsFlow k env.enter body
        let flow ← flow.leave
        flow.andThen fun env => do
          let env ← assign k env step
          return .next env)
      k.rounds (env.enter.declare init.var.name v)
    flow.leave
  | .ret e => do
    let v ← exprValue k env e
    return .returned v

/-- How statements one after the other come out. -/
def stmtsFlow (k : Context) (env : Env) : List Tree.Stmt → Effect Flow
  | [] => pure (.next env)
  | s :: rest => do
    let flow ← stmtFlow k env s
    flow.andThen fun env => stmtsFlow k env rest

/-- How a branch comes out: its body if its condition holds, and something else otherwise. -/
def branchFlow (k : Context) (env : Env) : Tree.Branch → Effect Flow → Effect Flow
  | .mk test body, otherwise => do
    let holds ← condition k env test
    if holds then do
      let flow ← stmtsFlow k env.enter body
      flow.leave
    else otherwise

/-- How branches come out: the first one whose condition holds, and something else if there is none. -/
def branchesFlow (k : Context) (env : Env) : List Tree.Branch → Effect Flow → Effect Flow
  | [], otherwise => otherwise
  | b :: rest, otherwise => branchFlow k env b (branchesFlow k env rest otherwise)

end

/-! ### Programs -/

/-- The value of a call of a function of a program. A function whose body does not return has the value null. -/
def functionValue (layouts : Lowering.Layouts) (p : Tree.Program) : Nat → Tree.Function → List Value → Effect Value
  | 0, _, _ => .exhausted
  | bound + 1, f, args =>
    if f.params.length = args.length then do
      let flow ← stmtsFlow ⟨layouts, p, f.name, bound, functionValue layouts p bound⟩ (Env.ofArgs f.params args) f.body
      match flow with
      | .next _ => return .null
      | .returned v => return v
    else .wrong

/-- Evaluates a program from its function `main`, which takes no arguments. -/
def runProgram (layouts : Lowering.Layouts) (p : Tree.Program) (bound : Nat) : Effect Unit :=
  match (function? p "main").filter fun f => f.params.isEmpty with
  | none => fun w => .failed .noEntryPoint none w
  | some main => do
    let _ ← functionValue layouts p bound main []
    .flush

/-! ### Calls with the right number of arguments -/

/-- How many arguments a name takes in a program; nothing if there is no such function. -/
def arity? (p : Tree.Program) (name : String) : Option Nat :=
  (builtinArity? name).or ((function? p name).map fun f => f.params.length)

/-- A call has the right number of arguments. -/
def rightArity (p : Tree.Program) (name : String) (args : List Tree.Expr) : Bool :=
  (arity? p name).all fun n => n == args.length

mutual

/-- The calls in an expression have the right number of arguments, and none writes. -/
def exprCalls (p : Tree.Program) : Tree.Expr → Bool
  | .literal _ => true
  | .path segments => segmentsCalls p segments
  | .call name args => name != "print" && rightArity p name args && argsCalls p args
  | .newArray _ size => subscriptCalls p size
  | .newStruct _ => true
  | .binary _ left right => exprCalls p left && exprCalls p right
  | .not e => exprCalls p e

def argsCalls (p : Tree.Program) : List Tree.Expr → Bool
  | [] => true
  | e :: rest => exprCalls p e && argsCalls p rest

def subscriptCalls (p : Tree.Program) : Tree.Subscript → Bool
  | .one index => exprCalls p index
  | .two row column => exprCalls p row && exprCalls p column

def segmentCalls (p : Tree.Program) : Tree.Segment → Bool
  | .plain _ => true
  | .indexed _ subscript => subscriptCalls p subscript

def segmentsCalls (p : Tree.Program) : List Tree.Segment → Bool
  | [] => true
  | segment :: rest => segmentCalls p segment && segmentsCalls p rest

end

def assignCalls (p : Tree.Program) (a : Tree.Assignment) : Bool :=
  segmentsCalls p a.target && exprCalls p a.value

mutual

/-- The calls in a statement have the right number of arguments, and none inside an expression writes. -/
def stmtCalls (p : Tree.Program) : Tree.Stmt → Bool
  | .declare d => exprCalls p d.init
  | .assign a => assignCalls p a
  | .call name args => rightArity p name args && argsCalls p args
  | .choose first others otherwise => branchCalls p first && branchesCalls p others && stmtsCalls p otherwise
  | .loop test body => exprCalls p test && stmtsCalls p body
  | .count init test step body => exprCalls p init.init && exprCalls p test && assignCalls p step && stmtsCalls p body
  | .ret e => exprCalls p e

def stmtsCalls (p : Tree.Program) : List Tree.Stmt → Bool
  | [] => true
  | s :: rest => stmtCalls p s && stmtsCalls p rest

def branchCalls (p : Tree.Program) : Tree.Branch → Bool
  | .mk test body => exprCalls p test && stmtsCalls p body

def branchesCalls (p : Tree.Program) : List Tree.Branch → Bool
  | [] => true
  | b :: rest => branchCalls p b && branchesCalls p rest

end

/-- All calls of a program have the right number of arguments, and it writes in statements only. -/
def WellCalled (p : Tree.Program) : Prop :=
  ∀ f ∈ p.functions, stmtsCalls p f.body = true

instance (p : Tree.Program) : Decidable (WellCalled p) :=
  inferInstanceAs (Decidable (∀ f ∈ p.functions, stmtsCalls p f.body = true))

end Bytecode.Evaluation
