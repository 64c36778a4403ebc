import Bytecode.Text.Numeral

/-! Numbers at the start of a text. The end of a number is looked for among the bytes of the text, and what stands before
    it is cut off and read. Places in a text are counted in bytes. A scan may look at a text and cut it only at places
    within the text that lie between two characters. -/

namespace Bytecode.Text

/-- The parts of a text before and behind a place. There are none if the place lies outside the text or inside a
character. -/
def splitAt? (s : String) (place : Nat) : Option (String × String) :=
  (s.pos? ⟨place⟩).map fun p => ((s.sliceTo p).copy, (s.sliceFrom p).copy)

/-- The bytes of a text from a place on. -/
def bytesFrom? (s : String) (place : Nat) : Option (List UInt8) :=
  (splitAt? s place).map fun parts => parts.2.toUTF8.data.toList

def isDigitByte (b : UInt8) : Bool :=
  '0'.toUInt8 ≤ b && b ≤ '9'.toUInt8

/-- How many of the first bytes are those of a sign: one or none. -/
def signLength : List UInt8 → Nat
  | [] => 0
  | b :: _ => if b = '+'.toUInt8 ∨ b = '-'.toUInt8 then 1 else 0

/-- How many of the first bytes are those of digits. -/
def digitsLength (bytes : List UInt8) : Nat :=
  (bytes.takeWhile isDigitByte).length

/-- The places at which the digits behind a place begin and end. A sign may stand before them. -/
def digitsFrom? (s : String) (place : Nat) : Option (Nat × Nat) := do
  let first := place + signLength (← bytesFrom? s place)
  return (first, first + digitsLength (← bytesFrom? s first))

/-- The place behind the integer at the start of a text, which is the start itself if no integer stands there. -/
def intEnd? (s : String) : Option Nat := do
  let (first, last) ← digitsFrom? s 0
  return if first = last then 0 else last

/-- The place behind the fraction at a place, which is that place if no point stands there. -/
def fractionEnd? (s : String) (place : Nat) : Option Nat := do
  if (← bytesFrom? s place).head? = some '.'.toUInt8 then
    return place + 1 + digitsLength (← bytesFrom? s (place + 1))
  else return place

/-- The place behind the exponent at a place, which is that place if no mark with digits behind it stands there. -/
def exponentEnd? (s : String) (place : Nat) : Option Nat := do
  let mark := (← bytesFrom? s place).head?
  if mark = some 'e'.toUInt8 ∨ mark = some 'E'.toUInt8 then
    let (first, last) ← digitsFrom? s (place + 1)
    return if first = last then place else last
  else return place

/-- The place behind the numeral at the start of a text, which is the start itself if no numeral stands there. -/
def numeralEnd? (s : String) : Option Nat := do
  let whole ← intEnd? s
  if whole = 0 then return 0
  let fraction ← fractionEnd? s whole
  exponentEnd? s fraction

/-- What stands before the end of a number, if a number stands there. -/
def beforeEnd? (s : String) (last : Nat) : Option (List Char) := do
  if last = 0 then none
  let (number, _) ← splitAt? s last
  return number.toList

/-- The integer at the start of a text: an optional sign and all digits behind it, whatever follows. -/
def intAtStart? (s : String) : Option Int64 := do
  intOf? (← beforeEnd? s (← intEnd? s))

/-- The double nearest to the longest numeral at the start of a text. -/
def doubleAtStart? (s : String) : Option Float := do
  doubleOf? (← beforeEnd? s (← numeralEnd? s))

end Bytecode.Text
