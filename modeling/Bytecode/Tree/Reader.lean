import Bytecode.Json.Parser
import Bytecode.Tree.Schema

/-! Reading declared types from JSON. A record is an object with its fields, whose other members are passed over, or an
    array of its fields in order. A variant is an object with one member, or just its name if it holds nothing. No more
    than a number of arrays and objects may be open inside each other; what is passed over does not count. -/

namespace Bytecode.Tree

/-- Readers for all shapes, given how many arrays and objects may still be opened. -/
abbrev Reader := Nat → (s : Shape) → Json → Option s.Carrier

/-- Reads what is inside an array or an object, if one may still be opened. -/
def inside {α : Type} (depth : Nat) (read : Nat → Option α) : Option α :=
  match depth with
  | 0 => none
  | depth + 1 => read depth

section
variable (read : Reader)

/-- Reads the items of an array. -/
def readItems (depth : Nat) (item : Shape) (j : Json) : Option (List item.Carrier) :=
  inside depth fun depth => do (← j.items?).mapM (read depth item)

/-- Reads a field that is present or left out. -/
def readField (depth : Nat) (f : FieldDecl) : Option Json → Option f.shape.Carrier
  | none => f.default
  | some j => read depth f.shape j

/-- Reads the fields of a record. -/
def readFields (depth : Nat) : (fields : List FieldDecl) → List (Option Json) → Option (FieldDecl.Values fields)
  | [], [] => some ()
  | f :: fields, value :: values => return (← readField read depth f value, ← readFields depth fields values)
  | _, _ => none

def readRecord (depth : Nat) (fields : List FieldDecl) (j : Json) : Option (FieldDecl.Values fields) :=
  inside depth fun depth => do readFields read depth fields (← j.fields? (fields.map FieldDecl.name))

/-- Reads the parts of a tuple. -/
def readParts (depth : Nat) : (parts : List Shape) → List Json → Option (Shape.Values parts)
  | [], [] => some ()
  | s :: parts, j :: rest => return (← read depth s j, ← readParts depth parts rest)
  | _, _ => none

/-- Reads what a variant holds. -/
def readPayload (depth : Nat) : (p : Payload) → Json → Option p.Carrier
  | .unit, .null => some ()
  | .unit, _ => none
  | .one s, j => read depth s j
  | .tuple parts, j => inside depth fun depth => do readParts read depth parts (← j.items?)
  | .record fields, j => readRecord read depth fields j

/-- The value of a variant that holds nothing. -/
def VariantDecl.bare? {α : Type} : VariantDecl α → Option α
  | ⟨_, .unit, make⟩ => some (make ())
  | _ => none

/-- Reads one of the variants of an enumeration. -/
def readVariant {α : Type} (depth : Nat) (variants : List (VariantDecl α)) (j : Json) : Option α :=
  match j with
  | .str (some name) => do (← variants.find? fun v => v.name == name).bare?
  | .obj [(some name, body)] =>
    inside depth fun depth => do
      let v ← variants.find? fun v => v.name == name
      return v.make (← readPayload read depth v.payload body)
  | _ => none

/-- Reads a value of a declared type. -/
def readDecl {α : Type} (depth : Nat) : Decl α → Json → Option α
  | .record fields make, j => (readRecord read depth fields j).map make
  | .enum variants, j => readVariant read depth variants j

/-- Reads a double, given how numbers are converted: from any number that does not overflow. -/
def readDouble (number : Text.Numeral → Float) (j : Json) : Option Float :=
  j.number?.bind fun n => if Double.isFinite (number n) then some (number n) else none

/-- Reads a value of a shape, given how numbers are converted and how what is inside is read. -/
def readShape (number : Text.Numeral → Float) (depth : Nat) : (s : Shape) → Json → Option s.Carrier
  | .bool, j => j.bool?
  | .int, j => j.int64?
  | .double, j => readDouble number j
  | .text, j => j.text?
  | .list item, j => readItems read depth item j
  | .node n, j => readDecl read depth n.decl j
  | .option _, .null => some none
  | .option n, j => (readDecl read depth n.decl j).map some

end

end Bytecode.Tree
