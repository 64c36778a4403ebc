import Bytecode.Value

/-! Faults: the causes that stop a program, their classes and messages, and the place where one arose. -/

namespace Bytecode

/-- The class of a fault. -/
inductive FaultKind where
  | nullReference
  | outOfBounds
  | missingEntryPoint
  | conversion
  | divisionByZero
  | unknownFunction
  | operand
  | io
  deriving DecidableEq, Repr

/-- What an operation takes where another kind of value was found. -/
inductive Wanted where
  | int
  | bool
  | string
  | object
  /-- What can be converted to an integer, apart from integers. -/
  | toInt
  /-- What can be converted to a double, apart from doubles. -/
  | toDouble
  /-- What can be converted to a text, apart from texts. -/
  | toText
  deriving DecidableEq, Repr

def Wanted.text : Wanted → String
  | .int => "int"
  | .bool => "bool"
  | .string => "string"
  | .object => "object"
  | .toInt => "double or string"
  | .toDouble => "int or string"
  | .toText => "int, double, bool or char"

/-- The cause of a fault. -/
inductive Fault where
  | nullReference
  | underflow
  | expected (wanted : Wanted) (found : Kind)
  | unsetSlot (slot : Nat)
  | notApplicable (mnemonic : String) (left right : Kind)
  | notComparable (left right : Kind)
  | divisionByZero
  | noEntryPoint
  | unknownFunction (name : String)
  | missingArguments (name : String) (arity present : Nat)
  | noStruct (id : Int64)
  | noField (id : Int64) (field : String)
  | noArray (id : Int64)
  | notGrid (id : Int64)
  | negativeLength (length : Int64)
  | negativeGrid (rows columns : Int64)
  | gridTooLarge (rows columns : Int64)
  | tooLong (length : Nat)
  | indexOutOfBounds
  | cellOutOfBounds (row column : Int64) (columns : Nat)
  | charOutOfBounds
  | notAnInt
  | notADouble
  | readFailed (reason : String)
  | writeFailed (reason : String)
  | flushFailed (reason : String)
  deriving DecidableEq

namespace Fault

def kind : Fault → FaultKind
  | .nullReference => .nullReference
  | .underflow | .expected .. | .unsetSlot _ | .notApplicable .. | .notComparable .. | .missingArguments .. => .operand
  | .noStruct _ | .noField .. | .noArray _ | .notGrid _ => .operand
  | .divisionByZero => .divisionByZero
  | .noEntryPoint => .missingEntryPoint
  | .unknownFunction _ => .unknownFunction
  | .negativeLength _ | .negativeGrid .. | .gridTooLarge .. | .tooLong _ => .outOfBounds
  | .indexOutOfBounds | .cellOutOfBounds .. | .charOutOfBounds => .outOfBounds
  | .notAnInt | .notADouble => .conversion
  | .readFailed _ | .writeFailed _ | .flushFailed _ => .io

/-- The message of a fault. -/
def message : Fault → String
  | .nullReference => "null reference"
  | .underflow => "operand stack underflow"
  | .expected wanted found => "expected " ++ wanted.text ++ ", found " ++ found.name
  | .unsetSlot slot => "slot " ++ toString slot ++ " was never stored"
  | .notApplicable mnemonic left right => "cannot apply " ++ mnemonic ++ " to " ++ left.name ++ " and " ++ right.name
  | .notComparable left right => "cannot compare " ++ left.name ++ " and " ++ right.name
  | .divisionByZero => "division by zero"
  | .noEntryPoint => "No 'main' function"
  | .unknownFunction name => "undefined function '" ++ name ++ "'"
  | .missingArguments name arity present =>
    "function '" ++ name ++ "' expects " ++ toString arity ++ " arguments, only " ++ toString present ++ " on the stack"
  | .noStruct id => "no struct with id " ++ decimal id
  | .noField id field => "struct " ++ decimal id ++ " has no field '" ++ field ++ "'"
  | .noArray id => "no array with id " ++ decimal id
  | .notGrid id => "array " ++ decimal id ++ " is not two-dimensional"
  | .negativeLength length => "negative array length " ++ decimal length
  | .negativeGrid rows columns => "negative 2D array dimensions " ++ decimal rows ++ "x" ++ decimal columns
  | .gridTooLarge rows columns => "2D array dimensions " ++ decimal rows ++ "x" ++ decimal columns ++ " too large"
  | .tooLong length => "cannot allocate array of " ++ toString length ++ " elements"
  | .indexOutOfBounds => "out-of-bounds array index"
  | .cellOutOfBounds row column columns =>
    "out-of-bounds 2D array index [" ++ decimal row ++ "][" ++ decimal column ++ "] (column stride "
      ++ toString columns ++ ")"
  | .charOutOfBounds => "out-of-bounds string index"
  | .notAnInt => "cannot convert string to int"
  | .notADouble => "cannot convert string to double"
  | .readFailed reason => "failed to read input: " ++ reason
  | .writeFailed reason => "failed to write output: " ++ reason
  | .flushFailed reason => "failed to flush output: " ++ reason

end Fault

/-- The place of an instruction: its function, its index in the code and its text. -/
structure Site where
  function : String
  pc : Nat
  instruction : String
  deriving DecidableEq

/-- How a site is shown behind a message. -/
def Site.text (s : Site) : String :=
  " (in " ++ s.function ++ " at " ++ toString s.pc ++ ": " ++ s.instruction ++ ")"

/-- A fault that ended a run, with its site if an instruction raised it. -/
structure Failure where
  fault : Fault
  site : Option Site
  deriving DecidableEq

/-- The message of a failure with its site. -/
def Failure.message (f : Failure) : String :=
  f.fault.message ++ (f.site.map Site.text).getD ""

end Bytecode
