import Bytecode.Proofs.Json.Writing
import Bytecode.Tree.Library

/-! What is relied on of the library. It reads strict JSON texts in which at most 127 arrays and objects are open inside each
    other, and derives from the declarations how the declared types are read (`Reads`) and written (`Writes`). Nothing is
    said of which double a number is read as, nor of which number is written for a double. -/

namespace Bytecode.Tree

/-! ### Writing -/

section
variable (write : (s : Shape) → s.Carrier → Json)

/-- The members that are written for the fields of a record. -/
def writeFields : (fields : List FieldDecl) → FieldDecl.Values fields → List (Option String × Json)
  | [], _ => []
  | f :: fields, v => (if f.omitted v.1 then [] else [(some f.name, write f.shape v.1)]) ++ writeFields fields v.2

def writeParts : (parts : List Shape) → Shape.Values parts → List Json
  | [], _ => []
  | s :: parts, v => write s v.1 :: writeParts parts v.2

/-- What is written for a variant with a name. -/
def writePayload (name : String) : (p : Payload) → p.Carrier → Json
  | .unit, _ => .str (some name)
  | .one s, v => .obj [(some name, write s v)]
  | .tuple parts, v => .obj [(some name, .arr (writeParts write parts v))]
  | .record fields, v => .obj [(some name, .obj (writeFields write fields v))]

end

namespace Library

/-! ### What is relied on -/

/-- The library reads JSON texts as the declarations say. -/
structure Reads (L : Library) : Prop where
  /-- A text is read if it is a strict JSON text, with at most 127 arrays and objects open inside each other. -/
  text : ∀ s t v, L.ofText? s t = some v ↔ ∃ j : Json, j.Spelled t.toList ∧ L.read 127 s j = some v
  bool : ∀ depth j, L.read depth .bool j = j.bool?
  /-- An integer is read from a number without fraction and exponent, other than negative zero. -/
  int : ∀ depth j, L.read depth .int j = j.int64?
  /-- A double is read from any number that does not overflow. -/
  double : ∀ depth j, L.read depth .double j = readDouble L.number j
  string : ∀ depth j, L.read depth .text j = j.text?
  list : ∀ item depth j, L.read depth (.list item) j = readItems L.read depth item j
  /-- What is optional is null, or there. -/
  absent : ∀ n depth, L.read depth (.option n) .null = some none
  present : ∀ n depth j, j ≠ .null → L.read depth (.option n) j = (L.read depth (.node n) j).map some
  /-- A record is read from an object or an array of its fields. -/
  record : ∀ n fields make, n.decl = .record fields make →
    ∀ depth j, L.read depth (.node n) j = (readRecord L.read depth fields j).map make
  /-- An enumeration is read from the name of a variant, or from an object whose member has that name. -/
  enum : ∀ n variants, n.decl = .enum variants → ∀ depth j, L.read depth (.node n) j = readVariant L.read depth variants j

/-- The library writes JSON texts as the declarations say. -/
structure Writes (L : Library) : Prop where
  /-- The text spells what is written. -/
  text : ∀ s v, (L.write s v).Strict → (L.write s v).Spelled (L.toText s v).toList
  bool : ∀ b, L.write .bool b = .bool b
  int : ∀ n, L.write .int n = intJson n
  double : ∀ x, L.write .double x = (L.numeral x).elim .null .num
  /-- A finite double is written as a number. -/
  finite : ∀ x, Double.isFinite x = true → ∃ k, L.numeral x = some k ∧ k.Strict
  string : ∀ t, L.write .text t = .str (some t)
  list : ∀ item vs, L.write (.list item) vs = .arr (vs.map (L.write item))
  absent : ∀ n, L.write (.option n) none = .null
  present : ∀ n v, L.write (.option n) (some v) = L.write (.node n) v
  record : ∀ n fields make, n.decl = .record fields make →
    ∀ v, L.write (.node n) (make v) = .obj (writeFields L.write fields v)
  enum : ∀ n variants, n.decl = .enum variants →
    ∀ variant ∈ variants, ∀ v, L.write (.node n) (variant.make v) = writePayload L.write variant.name variant.payload v

/-- The number that is written for a double is read back as the double. -/
def ReadsBack (L : Library) (x : Float) : Prop :=
  ∀ k, L.numeral x = some k → L.number k = x

end Library

end Bytecode.Tree
