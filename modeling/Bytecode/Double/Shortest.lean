/-! The shortest decimal of a double: the fewest digits that read back as the same double, and among those the
    nearest to it.

The reals that round to a double form an interval around it. Its ends lie halfway to the two neighbours and belong to
it exactly when the mantissa is even. The search goes through the powers of ten from coarse to fine and takes the
first one that has a multiple in the interval. -/

namespace Bytecode.Double

/-- The number `digits * 10 ^ exponent`. -/
structure Decimal where
  digits : Nat
  exponent : Int
  deriving DecidableEq, Repr

/-- The position of a multiple of a power of ten against `quarters * 2 ^ (exponent - 2)`, where `quarters` counts
quarters of the last place of a mantissa. -/
def compareQuarters (d : Decimal) (quarters : Nat) (exponent : Int) : Ordering :=
  let shift := exponent - 2
  compare (d.digits * Nat.pow 10 d.exponent.toNat * Nat.pow 2 (-shift).toNat)
    (quarters * Nat.pow 2 shift.toNat * Nat.pow 10 (-d.exponent).toNat)

/-- Whether a decimal is among the reals that round to `mantissa * 2 ^ exponent`. Below a power of two the gap to the
next double is half as wide as above it. -/
def readsBack (mantissa : Nat) (exponent : Int) (d : Decimal) : Bool :=
  let below := if mantissa = Nat.pow 2 52 ∧ -1074 < exponent then 1 else 2
  let ends := mantissa % 2 == 0
  let low := compareQuarters d (4 * mantissa - below) exponent
  let high := compareQuarters d (4 * mantissa + 2) exponent
  (low == .gt || (ends && low == .eq)) && (high == .lt || (ends && high == .eq))

/-- Which of two equally near decimals is taken. -/
inductive Tie where
  /-- The one with an even last digit. -/
  | even
  /-- The larger one. -/
  | up
  deriving DecidableEq

/-- The multiple of `10 ^ power` nearest to `mantissa * 2 ^ exponent` among the two around it that read back. -/
def multiple? (tie : Tie) (mantissa : Nat) (exponent power : Int) : Option Decimal :=
  let value := mantissa * Nat.pow 2 exponent.toNat * Nat.pow 10 (-power).toNat
  let unit := Nat.pow 10 power.toNat * Nat.pow 2 (-exponent).toNat
  let low : Decimal := ⟨value / unit, power⟩
  let high : Decimal := ⟨value / unit + 1, power⟩
  match readsBack mantissa exponent low, readsBack mantissa exponent high with
  | true, true =>
    match compare (2 * (value % unit)) unit, tie with
    | .lt, _ => some low
    | .gt, _ => some high
    | .eq, .up => some high
    | .eq, .even => some (if low.digits % 2 = 0 then low else high)
  | true, false => some low
  | false, true => some high
  | false, false => none

/-- Goes through the powers of ten downwards until one has a multiple that reads back. The number itself is always
such a multiple in the end. -/
def search (tie : Tie) (mantissa : Nat) (exponent : Int) : Nat → Int → Decimal
  | 0, _ => ⟨mantissa * Nat.pow 2 exponent.toNat * Nat.pow 5 (-exponent).toNat, min exponent 0⟩
  | tries + 1, power =>
    match multiple? tie mantissa exponent power with
    | some d => d
    | none => search tie mantissa exponent tries (power - 1)

/-- The shortest decimal of `mantissa * 2 ^ exponent`, for a positive mantissa. The search starts at a power of ten
above the number. -/
def shortest (tie : Tie) (mantissa : Nat) (exponent : Int) : Decimal :=
  if mantissa = 0 then ⟨0, 0⟩
  else search tie mantissa exponent 24 (((mantissa.log2 : Int) + exponent) * 30103 / 100000 + 2)

end Bytecode.Double
