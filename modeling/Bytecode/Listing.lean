import Bytecode.Chunk

/-! Listings: the code of a chunk as text, one section for each function in the order of their names, with a blank line
    between two sections. -/

namespace Bytecode.Listing

/-- The entry of an instruction with its index. -/
def entry (pc : Nat) (i : Instr) : String :=
  "  " ++ toString pc ++ ": " ++ i.text

/-- The entries of a function in the order of its code. -/
def entries (f : Function) : List String :=
  f.code.toList.mapIdx entry

/-- The section of a function: a heading and its entries, each ended by a line feed. -/
def ofFunction (f : Function) : String :=
  String.join ((("Frame '" ++ f.name ++ "'") :: entries f).map (· ++ "\n"))

/-- The listing of a chunk. -/
def text (c : Chunk) : String :=
  "\n".intercalate (c.functions.map ofFunction)

end Bytecode.Listing
