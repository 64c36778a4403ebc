import Bytecode.Double.Layout
import Bytecode.Double.Parts
import Bytecode.Text.Quoted

/-! Values of a running program, their kinds and their texts. -/

namespace Bytecode

/-- The kind of a value. -/
inductive Kind where
  | int
  | double
  | bool
  | string
  | null
  | object
  deriving DecidableEq, Repr

/-- The name of a kind in messages. -/
def Kind.name : Kind → String
  | .int => "int"
  | .double => "double"
  | .bool => "bool"
  | .string => "string"
  | .null => "null"
  | .object => "object"

/-- A value: a scalar, a text, nothing, or a reference to an object of the heap by its number. -/
inductive Value where
  | int (n : Int64)
  | double (x : Float)
  | bool (b : Bool)
  | str (s : String)
  | null
  | object (id : Int64)

/-- A 64-bit integer in decimal notation. -/
def decimal (n : Int64) : String :=
  toString n.toInt

namespace Double

/-- A double in positional notation with the fewest digits that read back as the same double, two equally near ones
going up. Without a fraction the text ends in `integral`. -/
def text (integral : String) (x : Float) : String :=
  match parts x with
  | .nan => "NaN"
  | .infinite negative => if negative then "-inf" else "inf"
  | .finite negative mantissa exponent =>
    let places := (shortest .up mantissa exponent).places
    let sign := if negative then "-" else ""
    let fraction := if places.fraction.isEmpty then integral else "." ++ String.ofList places.fraction
    sign ++ String.ofList places.whole ++ fraction

end Double

namespace Value

def kind : Value → Kind
  | .int _ => .int
  | .double _ => .double
  | .bool _ => .bool
  | .str _ => .string
  | .null => .null
  | .object _ => .object

/-- The text of a value, as programs write it. An integral double keeps a zero behind its point. -/
def text : Value → String
  | .int n => decimal n
  | .double x => Double.text ".0" x
  | .bool b => if b then "true" else "false"
  | .str s => s
  | .null => "null"
  | .object id => decimal id

/-- The text of a value, as traces show it, with its kind. -/
def debugText : Value → String
  | .int n => "Int(" ++ decimal n ++ ")"
  | .double x => "Double(" ++ Double.text "" x ++ ")"
  | .bool b => "Bool(" ++ (if b then "true" else "false") ++ ")"
  | .str s => "Str(" ++ Text.quoted s ++ ")"
  | .null => "Null"
  | .object id => "Object(" ++ decimal id ++ ")"

/-- Equality of values: values of different kinds differ, and doubles are compared as numbers, so that zero equals
negative zero and a value that is not a number differs from itself. -/
def same : Value → Value → Bool
  | .int a, .int b => a == b
  | .double a, .double b => a == b
  | .bool a, .bool b => a == b
  | .str a, .str b => a == b
  | .null, .null => true
  | .object a, .object b => a == b
  | _, _ => false

def asInt? : Value → Option Int64
  | .int n => some n
  | _ => none

def asDouble? : Value → Option Float
  | .double x => some x
  | _ => none

def asBool? : Value → Option Bool
  | .bool b => some b
  | _ => none

def asString? : Value → Option String
  | .str s => some s
  | _ => none

def asObject? : Value → Option Int64
  | .object id => some id
  | _ => none

end Value

end Bytecode
