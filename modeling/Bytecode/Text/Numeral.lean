import Bytecode.Double.Nearest

/-! Numerals in decimal notation: a sign, digits, a fraction and an exponent, and the integer or double they stand
    for. -/

namespace Bytecode.Text

/-! ### Digits -/

/-- The number that a row of decimal digits stands for, read from left to right. -/
def readDigits (digits : List Char) : Nat :=
  digits.foldl (fun n c => 10 * n + (c.toNat - '0'.toNat)) 0

/-- The number that a row of decimal digits stands for, read in halves a number of times over. -/
def readHalves : Nat → List Char → Nat
  | 0, digits => readDigits digits
  | rounds + 1, digits =>
    let half := digits.length / 2
    readHalves rounds (digits.take half) * Nat.pow 10 (digits.length - half) + readHalves rounds (digits.drop half)

/-- The number that a row of decimal digits stands for. Long rows are read in halves, which takes less time. -/
def digitsValue (digits : List Char) : Nat :=
  readHalves (digits.length.log2 - 5) digits

theorem foldl_digits (digits : List Char) (n : Nat) :
    digits.foldl (fun n c => 10 * n + (c.toNat - '0'.toNat)) n = n * Nat.pow 10 digits.length + readDigits digits := by
  induction digits generalizing n with
  | nil => simp [readDigits]
  | cons c digits ih =>
    rw [readDigits, List.foldl_cons, List.foldl_cons, ih, ih (10 * 0 + _), List.length_cons, Nat.pow_eq, Nat.pow_eq, Nat.pow_succ]
    grind

theorem readDigits_append (a b : List Char) :
    readDigits (a ++ b) = readDigits a * Nat.pow 10 b.length + readDigits b := by
  rw [readDigits, List.foldl_append, foldl_digits b]
  rfl

theorem readHalves_eq (rounds : Nat) (digits : List Char) : readHalves rounds digits = readDigits digits := by
  induction rounds generalizing digits with
  | zero => rfl
  | succ rounds ih =>
    rw [readHalves, ih, ih, ← List.length_drop, ← readDigits_append, List.take_append_drop]

/-- Reading in halves gives the same number as reading from left to right. -/
theorem digitsValue_eq (digits : List Char) : digitsValue digits = readDigits digits :=
  readHalves_eq _ digits

/-! ### Parts of numerals -/

/-- Splits off a leading sign; the flag says whether it was a minus. -/
def splitSign : List Char → Bool × List Char
  | '-' :: rest => (true, rest)
  | '+' :: rest => (false, rest)
  | rest => (false, rest)

/-- Splits off the leading decimal digits. -/
def splitDigits (cs : List Char) : List Char × List Char :=
  (cs.takeWhile Char.isDigit, cs.dropWhile Char.isDigit)

/-- An exponent: its sign and its digits. -/
structure Exponent where
  negative : Bool
  digits : List Char
  deriving DecidableEq

namespace Exponent

/-- The power of ten that an exponent stands for. -/
def value (e : Exponent) : Int :=
  if e.negative then -(digitsValue e.digits : Int) else digitsValue e.digits

/-- The leading digits behind a number, up to the one with which it reaches `2 ^ 16`. -/
def leadingDigits : Nat → List Char → List Char
  | _, [] => []
  | n, c :: rest => if Nat.pow 2 16 ≤ n then [] else c :: leadingDigits (10 * n + (c.toNat - '0'.toNat)) rest

/-- The exponent without the digits behind those with which it reaches `2 ^ 16`. -/
def curtailed (e : Exponent) : Exponent :=
  { e with digits := leadingDigits 0 e.digits }

end Exponent

/-- Splits off an exponent. A mark without a digit behind it is none. -/
def splitExponent : List Char → Option Exponent × List Char
  | [] => (none, [])
  | c :: rest =>
    if c = 'e' ∨ c = 'E' then
      let (negative, after) := splitSign rest
      let (digits, after) := splitDigits after
      if digits.isEmpty then (none, c :: rest) else (some ⟨negative, digits⟩, after)
    else (none, c :: rest)

/-- A numeral in decimal notation. An absent fraction and one without digits are the same. -/
structure Numeral where
  negative : Bool
  whole : List Char
  fraction : List Char := []
  exponent : Option Exponent := none
  deriving DecidableEq

namespace Numeral

/-- The power of ten by which the digits of the whole and the fraction together are scaled. -/
def scale (n : Numeral) : Int :=
  (n.exponent.elim 0 Exponent.value) - n.fraction.length

/-- The numeral with its exponent curtailed. -/
def curtailed (n : Numeral) : Numeral :=
  { n with exponent := n.exponent.map Exponent.curtailed }

/-- The digits of the whole and the fraction without the zeros on either side, and the power of ten of the last one. -/
def significant (n : Numeral) : List Char × Int :=
  let digits := (n.whole ++ n.fraction).dropWhile (· == '0')
  let kept := (digits.reverse.dropWhile (· == '0')).reverse
  (kept, n.scale + ((digits.length - kept.length : Nat) : Int))

/-- The bits of the double nearest to the number without its sign. A number far outside the range of doubles is settled
by its order of magnitude alone. -/
def magnitudeBits (n : Numeral) : Nat :=
  let (digits, exponent) := n.significant
  let order : Int := (digits.length : Int) + exponent
  if digits.isEmpty ∨ order < -330 then 0
  else if 310 < order then Double.infinityBits
  else Double.nearestDecimalBits (digitsValue digits) exponent

/-- The nearest double. -/
def toDouble (n : Numeral) : Float :=
  Double.ofMagnitude n.negative n.magnitudeBits

/-- The integer of a numeral without fraction and exponent. -/
def toInt (n : Numeral) : Int :=
  if n.negative then -(digitsValue n.whole : Int) else digitsValue n.whole

end Numeral

/-- An integer as a 64-bit integer, if it fits. -/
def int64? (n : Int) : Option Int64 :=
  if Int64.minValue.toInt ≤ n ∧ n ≤ Int64.maxValue.toInt then some (Int64.ofInt n) else none

/-- The integer that a text spells: an optional sign and digits. -/
def intOf? (cs : List Char) : Option Int64 :=
  let (negative, digits) := splitSign cs
  if digits.isEmpty ∨ digits.any (!·.isDigit) then none else int64? (Numeral.toInt ⟨negative, digits, [], none⟩)

/-- The numeral that a text spells: an optional sign, digits, an optional point with any number of digits behind it, and an
optional exponent. -/
def numeralOf? (cs : List Char) : Option Numeral :=
  let (negative, rest) := splitSign cs
  let (whole, rest) := splitDigits rest
  let (fraction, rest) :=
    match rest with
    | '.' :: after => splitDigits after
    | _ => ([], rest)
  let (exponent, rest) := splitExponent rest
  if whole.isEmpty ∨ !rest.isEmpty then none else some ⟨negative, whole, fraction, exponent⟩

/-- The double nearest to the numeral that a text spells, whose exponent counts as far as `2 ^ 16`. -/
def doubleOf? (cs : List Char) : Option Float :=
  (numeralOf? cs).map fun n => n.curtailed.toDouble

end Bytecode.Text
