import Bytecode.Chunk
import Bytecode.Lowering.Stmt

/-! Lowering of programs to chunks. A generator remembers the structs of all programs it was given. -/

namespace Bytecode.Lowering

/-- The slots of the parameters, in order. -/
def paramScope (params : List Tree.Variable) : Scope :=
  params.foldl (fun s p => s.declare p.name) Scope.start

/-- The code that takes the arguments from the operands, the first one on top. -/
def paramCode (params : List Tree.Variable) : List Instr :=
  (List.range params.length).map .store

/-- Code that ends in a return, which gives null back if the code had none. -/
def withReturn (code : List Instr) : List Instr :=
  match code.getLast? with
  | some .ret => code
  | _ => code ++ [.op (.push .null), .ret]

/-- The code of a function. -/
def functionCode (layouts : Layouts) (f : Tree.Function) : Except Error (List Instr) := do
  let (body, _) ← stmtsCode layouts (paramScope f.params) f.params.length f.body
  return withReturn (paramCode f.params ++ body)

/-- Lowers a function. -/
def lowerFunction (layouts : Layouts) (f : Tree.Function) : Except Error Function := do
  let code ← functionCode layouts f
  return ⟨f.name, f.params.length, code.toArray⟩

/-- Lowers functions one after the other into a chunk, which must not have one of the same name. -/
def lowerFunctions (layouts : Layouts) (c : Chunk) : List Tree.Function → Except Error Chunk
  | [] => .ok c
  | f :: rest => do
    if (c.get? f.name).isSome then throw (.duplicateFunction f.name)
    let g ← lowerFunction layouts f
    lowerFunctions layouts (c.add g) rest

/-- What is remembered from program to program. -/
structure Generator where
  layouts : Layouts := {}

/-- Lowers a program. Its structs are remembered even if it cannot be lowered. -/
def Generator.lower (g : Generator) (p : Tree.Program) : Except Error Chunk × Generator :=
  let layouts := g.layouts.register p.structs
  (lowerFunctions layouts {} p.functions, ⟨layouts⟩)

/-- Lowers a program by itself. -/
def lower (p : Tree.Program) : Except Error Chunk :=
  (Generator.lower {} p).1

end Bytecode.Lowering
