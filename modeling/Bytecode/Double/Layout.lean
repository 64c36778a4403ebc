import Bytecode.Double.Shortest

/-! Decimals written out: their digits before and after the decimal point. -/

namespace Bytecode.Double

/-- The digits of a number in positional notation. The digits before the point are never empty. -/
structure Places where
  whole : List Char
  fraction : List Char
  deriving DecidableEq

/-- The digits of a decimal around its point, without superfluous zeros. -/
def Decimal.places (d : Decimal) : Places :=
  let digits := Nat.toDigits 10 d.digits
  let point : Int := (digits.length : Int) + d.exponent
  if point ≤ 0 then ⟨['0'], List.replicate (-point).toNat '0' ++ digits⟩
  else if 0 ≤ d.exponent then ⟨digits ++ List.replicate d.exponent.toNat '0', []⟩
  else ⟨digits.take point.toNat, digits.drop point.toNat⟩

/-- The power of ten of the leading digit. -/
def Decimal.leading (d : Decimal) : Int :=
  ((Nat.toDigits 10 d.digits).length : Int) + d.exponent - 1

end Bytecode.Double
