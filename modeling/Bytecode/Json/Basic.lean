import Bytecode.Text.Numeral

/-! JSON values. An object keeps its members in the order in which they were written, repeated names included, and a
    number keeps its numeral. A string may spell half of a surrogate pair on its own; it then is no text. -/

namespace Bytecode

/-- A JSON value. -/
inductive Json where
  | null
  | bool (b : Bool)
  | num (n : Text.Numeral)
  | str (s : Option String)
  | arr (items : List Json)
  | obj (members : List (Option String × Json))

namespace Json

def bool? : Json → Option Bool
  | .bool b => some b
  | _ => none

def text? : Json → Option String
  | .str s => s
  | _ => none

def items? : Json → Option (List Json)
  | .arr items => some items
  | _ => none

/-- The integer of a numeral without fraction and exponent, if it fits. The numeral of negative zero is none. -/
def int64? : Json → Option Int64
  | .num n =>
    if n.fraction.isEmpty && n.exponent.isNone && !(n.negative && n.toInt == 0) then Text.int64? n.toInt else none
  | _ => none

def number? : Json → Option Text.Numeral
  | .num n => some n
  | _ => none

/-- The member with a name: nothing if there are several, and nothing inside if there is none. -/
def member? (members : List (Option String × Json)) (name : String) : Option (Option Json) :=
  match members.filter fun m => m.1 == some name with
  | [] => some none
  | [m] => some (some m.2)
  | _ => none

/-- The fields of a record with the given names, each present or not. A record is an object, whose other members do not
matter as long as their names are texts, or an array of the fields in order, from which the last ones may be left
out. -/
def fields? (names : List String) : Json → Option (List (Option Json))
  | .arr items =>
    if items.length ≤ names.length then
      some (items.map some ++ List.replicate (names.length - items.length) none)
    else none
  | .obj members => if members.all fun m => m.1.isSome then names.mapM (member? members) else none
  | _ => none

end Json

end Bytecode
