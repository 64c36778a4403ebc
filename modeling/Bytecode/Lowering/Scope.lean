import Bytecode.Table
import Bytecode.Tree

/-! Names while a program is lowered: the slots of variables in nested blocks, the field names of structs, and what can
    be wrong with a name. -/

namespace Bytecode.Lowering

/-- Why a program cannot be lowered. -/
inductive Error where
  | unknownVariable (name : String)
  | unknownStruct (name : String)
  | duplicateFunction (name : String)
  | emptyPath
  deriving DecidableEq, Repr

def Error.message : Error → String
  | .unknownVariable name => "use of undeclared variable '" ++ name ++ "'"
  | .unknownStruct name => "unknown struct type '" ++ name ++ "'"
  | .duplicateFunction name => "function '" ++ name ++ "' is defined more than once"
  | .emptyPath => "empty variable path"

/-- The open blocks, the innermost first, each with the slots of its variables, the latest first; and the number of
slots given out so far. -/
structure Scope where
  blocks : List (List (String × Nat))
  next : Nat
  deriving DecidableEq, Repr

namespace Scope

/-- The scope at the start of a function. -/
def start : Scope :=
  ⟨[[]], 0⟩

/-- Opens a block. -/
def enter (s : Scope) : Scope :=
  { s with blocks := [] :: s.blocks }

/-- Closes the innermost block; its slots are not given out again. -/
def leave (s : Scope) : Scope :=
  { s with blocks := s.blocks.tail }

/-- Gives the next slot to a variable of the innermost block. -/
def declare (s : Scope) (name : String) : Scope :=
  match s.blocks with
  | [] => { s with next := s.next + 1 }
  | block :: rest => ⟨((name, s.next) :: block) :: rest, s.next + 1⟩

/-- The slot of a name: that of its latest variable in the innermost block that has one. -/
def find? (s : Scope) (name : String) : Option Nat :=
  s.blocks.findSome? fun block => block.lookup name

/-- The slot of a name, which must be a variable. -/
def slot (s : Scope) (name : String) : Except Error Nat :=
  (s.find? name).elim (.error (.unknownVariable name)) .ok

end Scope

/-- The field names of each struct. -/
abbrev Layouts := Table (List String)

namespace Layouts

/-- Takes in the structs of a program; a later struct replaces an earlier one of the same name. -/
def register (l : Layouts) (structs : List Tree.Struct) : Layouts :=
  structs.foldl (fun l s => l.put s.name (s.fields.map fun f => f.name)) l

/-- The field names of a struct, which must be known. -/
def fields (l : Layouts) (name : String) : Except Error (List String) :=
  (l.get? name).elim (.error (.unknownStruct name)) .ok

end Layouts

end Bytecode.Lowering
