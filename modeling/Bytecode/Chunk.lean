import Bytecode.Instr

/-! Functions and the chunks they are collected in. -/

namespace Bytecode

/-- A function: its name, how many arguments it takes, and its code. -/
structure Function where
  name : String
  arity : Nat
  code : Array Instr

/-- Functions with different names, in the order of their names. -/
structure Chunk where
  functions : List Function := []

namespace Chunk

/-- Puts a function at its place among functions ordered by name, instead of one with the same name. -/
def insert (f : Function) : List Function → List Function
  | [] => [f]
  | g :: rest =>
    if f.name = g.name then f :: rest
    else if f.name < g.name then f :: g :: rest
    else g :: insert f rest

/-- Adds a function; it replaces one with the same name. -/
def add (c : Chunk) (f : Function) : Chunk :=
  ⟨insert f c.functions⟩

/-- The function with a name. -/
def get? (c : Chunk) (name : String) : Option Function :=
  c.functions.find? fun f => f.name == name

end Chunk

end Bytecode
