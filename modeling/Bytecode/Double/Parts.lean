/-! The parts of a double: sign, mantissa and binary exponent of a finite value, read off its bits.

Finite doubles are `± mantissa * 2 ^ exponent` with `mantissa < 2 ^ 53` and `-1074 ≤ exponent`. Everything that has
to be exact about doubles (their text, their integral part) is computed from these parts in whole numbers. -/

namespace Bytecode.Double

/-- What a double stands for. -/
inductive Parts where
  | nan
  | infinite (negative : Bool)
  | finite (negative : Bool) (mantissa : Nat) (exponent : Int)
  deriving DecidableEq

/-- The parts that 64 bits stand for. -/
def partsOfBits (bits : Nat) : Parts :=
  let negative := decide (bits / Nat.pow 2 63 % 2 = 1)
  let raised : Nat := bits / Nat.pow 2 52 % Nat.pow 2 11
  let fraction : Nat := bits % Nat.pow 2 52
  if raised = 2047 then
    if fraction = 0 then .infinite negative else .nan
  else if raised = 0 then .finite negative fraction (-1074)
  else .finite negative (Nat.pow 2 52 + fraction) ((raised : Int) - 1075)

/-- The parts of a double. -/
def parts (x : Float) : Parts :=
  partsOfBits x.toBits.toNat

/-- The integral part of a double as a 64-bit integer: a value beyond either bound gives that bound, and a value that
is not a number gives zero. -/
def truncate (x : Float) : Int64 :=
  match parts x with
  | .nan => 0
  | .infinite negative => if negative then Int64.minValue else Int64.maxValue
  | .finite negative mantissa exponent =>
    let magnitude : Nat := mantissa * Nat.pow 2 exponent.toNat / Nat.pow 2 (-exponent).toNat
    let value : Int := if negative then -(magnitude : Int) else magnitude
    if value < Int64.minValue.toInt then Int64.minValue
    else if Int64.maxValue.toInt < value then Int64.maxValue
    else Int64.ofInt value

end Bytecode.Double
