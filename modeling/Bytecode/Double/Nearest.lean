/-! The double nearest to a fraction or a decimal, by exact arithmetic. A tie goes to the even mantissa, and a value
    beyond the largest double gives infinity. -/

namespace Bytecode.Double

/-- The natural number nearest to `num / den`, the even one of two. -/
def roundDiv (num den : Nat) : Nat :=
  let quotient := num / den
  let twice := 2 * (num % den)
  if twice < den ∨ (twice = den ∧ quotient % 2 = 0) then quotient else quotient + 1

/-- The `k` with `2 ^ k ≤ num / den < 2 ^ (k + 1)`, for positive numbers. -/
def floorLog (num den : Nat) : Int :=
  let guess : Int := (num.log2 : Int) - (den.log2 : Int)
  if num * Nat.pow 2 (-guess).toNat < den * Nat.pow 2 guess.toNat then guess - 1 else guess

/-- The bits of positive infinity. -/
def infinityBits : Nat := 2047 * Nat.pow 2 52

/-- The bits of the double nearest to `num / den`.

With the exponent chosen so that the mantissa keeps 53 bits, the bits are the raised exponent followed by the mantissa
without its leading bit; a mantissa that rounds up to `2 ^ 53` carries into the exponent. -/
def nearestBits (num den : Nat) : Nat :=
  if num = 0 then 0
  else
    let exponent := max (floorLog num den - 52) (-1074)
    let mantissa := roundDiv (num * Nat.pow 2 (-exponent).toNat) (den * Nat.pow 2 exponent.toNat)
    min ((exponent + 1074).toNat * Nat.pow 2 52 + mantissa) infinityBits

/-- The bits of the double nearest to `digits * 10 ^ exponent`. -/
def nearestDecimalBits (digits : Nat) (exponent : Int) : Nat :=
  nearestBits (digits * Nat.pow 10 exponent.toNat) (Nat.pow 10 (-exponent).toNat)

/-- The double with a sign and the bits of a magnitude. -/
def ofMagnitude (negative : Bool) (bits : Nat) : Float :=
  Float.ofBits (UInt64.ofNat (if negative then Nat.pow 2 63 + bits else bits))

/-- The double nearest to an integer. -/
def ofInt (n : Int) : Float :=
  ofMagnitude (decide (n < 0)) (nearestBits n.natAbs 1)

/-- Whether a double is neither an infinity nor a value that is not a number. -/
def isFinite (x : Float) : Bool :=
  decide (x.toBits.toNat % Nat.pow 2 63 < infinityBits)

end Bytecode.Double
