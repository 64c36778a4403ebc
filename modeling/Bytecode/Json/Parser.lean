import Bytecode.Json.Token

/-! Reading JSON texts. The tokens are taken one by one, with the arrays and objects that are still open on a stack, so
    that nesting may be as deep as the text is long. -/

namespace Bytecode.Json

/-- An array or an object that is still open, with its items or members so far in reverse. An object waits for the
value of a name. -/
inductive Open where
  | array (items : List Json)
  | object (members : List (Option String × Json)) (name : Option String)

/-- What comes next. -/
inductive Place where
  /-- A value. -/
  | value
  /-- The first item of an array, or its end. -/
  | firstItem
  /-- The first name of an object, or its end. -/
  | firstName
  /-- A name of an object, behind the members so far. -/
  | name (members : List (Option String × Json))
  /-- The colon behind a name. -/
  | colon (members : List (Option String × Json)) (name : Option String)
  /-- What may follow a complete value. -/
  | after (j : Json)

/-- Takes the token of a place where a value may start. -/
def startValue (t : Token) (stack : List Open) : Option (Place × List Open) :=
  match t with
  | .null => some (.after .null, stack)
  | .bool b => some (.after (.bool b), stack)
  | .num n => some (.after (.num n), stack)
  | .str s => some (.after (.str s), stack)
  | .openArray => some (.firstItem, stack)
  | .openObject => some (.firstName, stack)
  | _ => none

/-- Takes a token at a place. -/
def takeToken (t : Token) (place : Place) (stack : List Open) : Option (Place × List Open) :=
  match place, t, stack with
  | .value, t, stack => startValue t stack
  | .firstItem, .closeArray, stack => some (.after (.arr []), stack)
  | .firstItem, t, stack => startValue t (.array [] :: stack)
  | .firstName, .closeObject, stack => some (.after (.obj []), stack)
  | .firstName, .str name, stack => some (.colon [] name, stack)
  | .name members, .str name, stack => some (.colon members name, stack)
  | .colon members name, .colon, stack => some (.value, .object members name :: stack)
  | .after j, .comma, .array items :: stack => some (.value, .array (j :: items) :: stack)
  | .after j, .closeArray, .array items :: stack => some (.after (.arr (j :: items).reverse), stack)
  | .after j, .comma, .object members name :: stack => some (.name ((name, j) :: members), stack)
  | .after j, .closeObject, .object members name :: stack =>
    some (.after (.obj ((name, j) :: members).reverse), stack)
  | _, _, _ => none

/-- Takes all tokens; the value must be complete when they end. -/
def ofTokens? : List Token → Place → List Open → Option Json
  | [], .after j, [] => some j
  | [], _, _ => none
  | t :: rest, place, stack =>
    match takeToken t place stack with
    | some (place, stack) => ofTokens? rest place stack
    | none => none

/-- The value that a text spells. -/
def parse? (s : String) : Option Json :=
  (tokens? s.toList).bind fun ts => ofTokens? ts .value []

end Bytecode.Json
