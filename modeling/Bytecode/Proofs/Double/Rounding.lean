import Bytecode.Double.Nearest
import Bytecode.Double.Shortest
import Mathlib.Algebra.Order.Field.Power
import Mathlib.Tactic.Linarith
import Mathlib.Tactic.Positivity

/-! Rounding to doubles. The numbers that round to a double form an interval around it (`Double.Rounds`), and the bits of the
    nearest double of a fraction in that interval are those of the double. -/

namespace Bytecode.Double

/-- The number `digits * 10 ^ exponent`. -/
def Decimal.value (d : Decimal) : ℚ :=
  d.digits * 10 ^ d.exponent

/-- Mantissa and exponent of a finite double. -/
structure Canonical (m : Nat) (e : Int) : Prop where
  mantissa : m < 2 ^ 53
  low : -1074 ≤ e
  high : e ≤ 971
  leading : 2 ^ 52 ≤ m ∨ e = -1074

/-- The number rounds to `m` when it is rounded to a whole number: it is less than a half away, or just a half and `m` is
even. -/
structure Whole (m : Nat) (y : ℚ) : Prop where
  low : (m : ℚ) - 1 / 2 < y ∨ m % 2 = 0 ∧ (m : ℚ) - 1 / 2 = y
  high : y < m + 1 / 2 ∨ m % 2 = 0 ∧ y = m + 1 / 2

/-- The distance from a mantissa down to the end of the numbers that round to it, in quarters. Below a power of two the
doubles stand twice as close. -/
def below (m : Nat) (e : Int) : Nat :=
  if m = 2 ^ 52 ∧ -1074 < e then 1 else 2

/-- The number rounds to the double `m * 2 ^ e`. -/
structure Rounds (m : Nat) (e : Int) (q : ℚ) : Prop where
  low : ((4 * m - below m e : Nat) : ℚ) * 2 ^ (e - 2) < q ∨ m % 2 = 0 ∧ q = ((4 * m - below m e : Nat) : ℚ) * 2 ^ (e - 2)
  high : q < ((4 * m + 2 : Nat) : ℚ) * 2 ^ (e - 2) ∨ m % 2 = 0 ∧ q = ((4 * m + 2 : Nat) : ℚ) * 2 ^ (e - 2)

/-! ### Powers -/

theorem zpow_eq_div {p : Nat} (hp : 0 < p) (i : Int) :
    (p : ℚ) ^ i = ((p ^ i.toNat : Nat) : ℚ) / ((p ^ (-i).toNat : Nat) : ℚ) := by
  have hne : (p : ℚ) ≠ 0 := by positivity
  rcases le_total 0 i with hi | hi
  · obtain ⟨n, rfl⟩ := Int.eq_ofNat_of_zero_le hi
    simp
  · obtain ⟨n, hn⟩ := Int.eq_ofNat_of_zero_le (Int.neg_nonneg_of_nonpos hi)
    obtain rfl : i = -n := by omega
    simp

theorem two_zpow (i : Int) : (2 : ℚ) ^ i = ((2 ^ i.toNat : Nat) : ℚ) / ((2 ^ (-i).toNat : Nat) : ℚ) :=
  zpow_eq_div (p := 2) (by norm_num) i

theorem ten_zpow (i : Int) : (10 : ℚ) ^ i = ((10 ^ i.toNat : Nat) : ℚ) / ((10 ^ (-i).toNat : Nat) : ℚ) :=
  zpow_eq_div (p := 10) (by norm_num) i

/-! ### Rounding a quotient -/

/-- The whole number that is less than a half away from a quotient, or just a half and even. -/
theorem roundDiv_of_near {num den m : Nat} (hden : 0 < den)
    (hlow : 2 * m * den < 2 * num + den ∨ m % 2 = 0 ∧ 2 * m * den = 2 * num + den)
    (hhigh : 2 * num < 2 * m * den + den ∨ m % 2 = 0 ∧ 2 * num = 2 * m * den + den) : roundDiv num den = m := by
  have hdiv := Nat.div_add_mod num den
  have hmod := Nat.mod_lt num hden
  unfold roundDiv
  generalize num / den = quotient at *
  generalize num % den = rest at *
  subst hdiv
  have hle : m ≤ quotient + 1 := by
    by_contra hlt
    have : den * (quotient + 2) ≤ den * m := Nat.mul_le_mul_left _ (by omega)
    grind
  have hge : quotient ≤ m := by
    by_contra hlt
    have : den * (m + 1) ≤ den * quotient := Nat.mul_le_mul_left _ (by omega)
    grind
  obtain rfl | rfl : m = quotient ∨ m = quotient + 1 := by omega
  · have hrest : 2 * rest < den ∨ (2 * rest = den ∧ m % 2 = 0) := by grind
    simp [hrest]
  · have hrest : den < 2 * rest ∨ (2 * rest = den ∧ quotient % 2 = 1) := by grind
    have hup : ¬(2 * rest < den ∨ (2 * rest = den ∧ quotient % 2 = 0)) := by omega
    simp [hup]

theorem roundDiv_eq {num den m : Nat} (hden : 0 < den) (h : Whole m (num / den : ℚ)) : roundDiv num den = m := by
  have hden' : (0 : ℚ) < den := by exact_mod_cast hden
  refine roundDiv_of_near hden ?_ ?_
  · rcases h.low with hlt | ⟨heven, heq⟩
    · left
      rw [lt_div_iff₀ hden'] at hlt
      have : (2 * m * den : ℚ) < 2 * num + den := by linarith
      exact_mod_cast this
    · right
      rw [eq_div_iff hden'.ne'] at heq
      have : (2 * m * den : ℚ) = 2 * num + den := by linarith
      exact ⟨heven, by exact_mod_cast this⟩
  · rcases h.high with hlt | ⟨heven, heq⟩
    · left
      rw [div_lt_iff₀ hden'] at hlt
      have : (2 * num : ℚ) < 2 * m * den + den := by linarith
      exact_mod_cast this
    · right
      rw [div_eq_iff hden'.ne'] at heq
      have : (2 * num : ℚ) = 2 * m * den + den := by linarith
      exact ⟨heven, by exact_mod_cast this⟩

/-! ### The power of two below a quotient -/

theorem two_zpow_log2 {n : Nat} (hn : 0 < n) : (2 : ℚ) ^ (n.log2 : Int) ≤ n ∧ (n : ℚ) < 2 ^ ((n.log2 : Int) + 1) := by
  constructor
  · have : 2 ^ n.log2 ≤ n := Nat.log2_self_le hn.ne'
    exact_mod_cast this
  · have : n < 2 ^ (n.log2 + 1) := Nat.lt_log2_self
    exact_mod_cast this

theorem floorLog_spec {num den : Nat} (hnum : 0 < num) (hden : 0 < den) :
    (2 : ℚ) ^ floorLog num den ≤ num / den ∧ (num / den : ℚ) < 2 ^ (floorLog num den + 1) := by
  obtain ⟨hnumlow, hnumhigh⟩ := two_zpow_log2 hnum
  obtain ⟨hdenlow, hdenhigh⟩ := two_zpow_log2 hden
  have hden' : (0 : ℚ) < den := by exact_mod_cast hden
  have htwo : (2 : ℚ) ≠ 0 := by norm_num
  unfold floorLog
  dsimp only
  generalize hguess : (num.log2 : Int) - den.log2 = guess
  have htest : num * Nat.pow 2 (-guess).toNat < den * Nat.pow 2 guess.toNat ↔ (num / den : ℚ) < 2 ^ guess := by
    rw [two_zpow, div_lt_div_iff₀ hden' (by positivity), Nat.pow_eq, Nat.pow_eq, mul_comm den]
    exact_mod_cast Iff.rfl
  -- The difference of the logarithms is the exponent or one too many.
  have hhigh : (num / den : ℚ) < 2 ^ (guess + 1) := by
    rw [div_lt_iff₀ hden']
    calc (num : ℚ) < 2 ^ ((num.log2 : Int) + 1) := hnumhigh
      _ = 2 ^ (guess + 1) * 2 ^ (den.log2 : Int) := by rw [← zpow_add₀ htwo]; congr 1; omega
      _ ≤ 2 ^ (guess + 1) * den := by gcongr
  have hlow : (2 : ℚ) ^ (guess - 1) ≤ num / den := by
    rw [le_div_iff₀ hden']
    calc (2 : ℚ) ^ (guess - 1) * den ≤ 2 ^ (guess - 1) * 2 ^ ((den.log2 : Int) + 1) := by gcongr
      _ = 2 ^ (num.log2 : Int) := by rw [← zpow_add₀ htwo]; congr 1; omega
      _ ≤ num := hnumlow
  split
  · rename_i hlt
    exact ⟨hlow, by simpa using htest.mp hlt⟩
  · rename_i hge
    exact ⟨not_lt.mp fun hlt => hge (htest.mpr hlt), hhigh⟩

/-! ### The bits of the nearest double -/

section
variable {num den m : Nat} {e : Int} {q : ℚ}

theorem quarter_zpow (e : Int) : (2 : ℚ) ^ (e - 2) = 2 ^ e / 4 := by
  rw [zpow_sub₀ (by norm_num)]
  norm_num

/-- A number that rounds to a double is at least the lower end of its interval, and at most the upper end. -/
theorem Rounds.bounds (h : Rounds m e q) (hm : 0 < m) :
    ((m : ℚ) - below m e / 4) * 2 ^ e ≤ q ∧ q ≤ ((m : ℚ) + 1 / 2) * 2 ^ e := by
  have hbelow : below m e ≤ 4 * m := by
    unfold below
    split <;> omega
  have hlow := h.low
  have hhigh := h.high
  rw [quarter_zpow] at hlow hhigh
  push_cast [Nat.cast_sub hbelow] at hlow hhigh
  constructor
  · rcases hlow with hlt | ⟨-, heq⟩ <;> linarith
  · rcases hhigh with hlt | ⟨-, heq⟩ <;> linarith

/-- A number that rounds to a double rounds to its mantissa in units of its last place, unless it is below a power of two,
where the units are smaller. -/
theorem Rounds.whole (h : Rounds m e q) (hm : 0 < m) (hin : 2 ^ 52 * (2 : ℚ) ^ e ≤ q ∨ e = -1074) :
    Whole m (q / 2 ^ e) := by
  have hpos : (0 : ℚ) < 2 ^ e := by positivity
  have hlow := h.low
  have hhigh := h.high
  rw [quarter_zpow] at hlow hhigh
  constructor
  · rw [lt_div_iff₀ hpos, eq_div_iff hpos.ne']
    unfold below at hlow
    split at hlow
    · rename_i hpower
      -- The narrow side below a power of two is excluded by the assumption.
      have hq : 2 ^ 52 * (2 : ℚ) ^ e ≤ q := hin.resolve_right (by omega)
      rw [hpower.1]
      left
      push_cast
      linarith
    · push_cast [Nat.cast_sub (show 2 ≤ 4 * m by omega)] at hlow
      rcases hlow with hlt | ⟨heven, heq⟩
      · left
        linarith
      · right
        exact ⟨heven, by linarith⟩
  · rw [div_lt_iff₀ hpos, div_eq_iff hpos.ne']
    push_cast at hhigh
    rcases hhigh with hlt | ⟨heven, heq⟩
    · left
      linarith
    · right
      exact ⟨heven, by linarith⟩

/-- Just below a power of two a number that rounds to it rounds to twice its mantissa in units of half the size. -/
theorem Rounds.whole_below (h : Rounds m e q) (hc : Canonical m e) (hq : q < 2 ^ 52 * (2 : ℚ) ^ e) (he : e ≠ -1074) :
    m = 2 ^ 52 ∧ Whole (2 ^ 53) (q / 2 ^ (e - 1)) := by
  have hpos : (0 : ℚ) < 2 ^ e := by positivity
  have hleading : 2 ^ 52 ≤ m := hc.leading.resolve_right he
  have hlow := (h.bounds (by omega)).1
  -- Only at a power of two do the numbers below lie closer together.
  have hpower : m = 2 ^ 52 := by
    by_contra hne
    have hgt : ((2 ^ 52 + 1 : Nat) : ℚ) ≤ m := by exact_mod_cast (by omega : 2 ^ 52 + 1 ≤ m)
    rw [below, if_neg (fun hp => hne hp.1)] at hlow
    push_cast at hgt hlow
    nlinarith
  refine ⟨hpower, ?_⟩
  have hhalf : (2 : ℚ) ^ (e - 1) = 2 ^ e / 2 := by
    rw [zpow_sub₀ (by norm_num)]
    norm_num
  have hlowe := hc.low
  rw [below, if_pos ⟨hpower, by omega⟩, hpower] at hlow
  push_cast at hlow
  rw [hhalf]
  constructor
  · rw [lt_div_iff₀ (by positivity), eq_div_iff (by positivity)]
    push_cast
    rcases hlow.lt_or_eq with hlt | heq
    · left
      linarith
    · right
      exact ⟨by norm_num, by linarith⟩
  · left
    rw [div_lt_iff₀ (by positivity)]
    push_cast
    linarith

theorem nearestBits_of_whole (hnum : 0 < num) (hden : 0 < den) (he : max (floorLog num den - 52) (-1074) = e)
    (h : Whole m (num / den / 2 ^ e : ℚ)) : nearestBits num den = min ((e + 1074).toNat * 2 ^ 52 + m) infinityBits := by
  have hratio : (num / den / 2 ^ e : ℚ) =
      ((num * 2 ^ (-e).toNat : Nat) : ℚ) / ((den * 2 ^ e.toNat : Nat) : ℚ) := by
    rw [two_zpow, div_div_eq_mul_div, Nat.cast_mul, Nat.cast_mul, div_mul_eq_mul_div, div_div]
  rw [hratio] at h
  have hround := roundDiv_eq (Nat.mul_pos hden (by positivity)) h
  unfold nearestBits
  rw [if_neg hnum.ne']
  simp only [he, Nat.pow_eq, hround]

/-- The nearest double of a fraction that rounds to a double is that double. -/
theorem nearestBits_eq (hden : 0 < den) (hc : Canonical m e) (hm : 0 < m) (h : Rounds m e (num / den : ℚ)) :
    nearestBits num den = (e + 1074).toNat * 2 ^ 52 + m := by
  have hpos : (0 : ℚ) < 2 ^ e := by positivity
  have htwo : (2 : ℚ) ≠ 0 := by norm_num
  have hone : (1 : ℚ) < 2 := by norm_num
  have hmantissa := hc.mantissa
  have hlow := hc.low
  have hhigh := hc.high
  obtain ⟨hmin, hmax⟩ := h.bounds hm
  have hm' : (1 : ℚ) ≤ m := by exact_mod_cast hm
  have hbelow : (below m e : ℚ) ≤ 2 := by exact_mod_cast (by unfold below; split <;> omega : below m e ≤ 2)
  have hnum : 0 < num := by
    by_contra hzero
    obtain rfl : num = 0 := by omega
    simp only [Nat.cast_zero, zero_div] at hmin
    nlinarith
  have hfew : (e + 1074).toNat * 2 ^ 52 + m < infinityBits := by
    unfold infinityBits
    rw [Nat.pow_eq]
    omega
  obtain ⟨hlog, hlog'⟩ := floorLog_spec hnum hden
  -- The fraction lies below the power of two behind the largest mantissa.
  have hlt : (num / den : ℚ) < 2 ^ (e + 53) := by
    have hm'' : (m : ℚ) + 1 ≤ 2 ^ 53 := by exact_mod_cast hmantissa
    rw [zpow_add₀ htwo]
    norm_num at hm'' ⊢
    nlinarith
  have hle : floorLog num den < e + 53 := (zpow_lt_zpow_iff_right₀ hone).mp (hlog.trans_lt hlt)
  by_cases hin : 2 ^ 52 * (2 : ℚ) ^ e ≤ num / den ∨ e = -1074
  · have he : max (floorLog num den - 52) (-1074) = e := by
      rcases hin with hin | rfl
      · have : (2 : ℚ) ^ (e + 52) < 2 ^ (floorLog num den + 1) := by
          refine lt_of_le_of_lt ?_ hlog'
          rw [zpow_add₀ htwo, mul_comm]
          exact_mod_cast hin
        have := (zpow_lt_zpow_iff_right₀ hone).mp this
        omega
      · omega
    rw [nearestBits_of_whole hnum hden he (h.whole hm hin)]
    omega
  · push Not at hin
    obtain ⟨hpower, hwhole⟩ := h.whole_below hc hin.1 hin.2
    have he : max (floorLog num den - 52) (-1074) = e - 1 := by
      have hup : (2 : ℚ) ^ floorLog num den < 2 ^ (e + 52) := by
        refine lt_of_le_of_lt hlog ?_
        rw [zpow_add₀ htwo, mul_comm]
        exact_mod_cast hin.1
      have hdown : (2 : ℚ) ^ (e + 51) < 2 ^ (floorLog num den + 1) := by
        refine lt_of_le_of_lt ?_ hlog'
        have hm'' : (2 : ℚ) ^ 52 ≤ m := by exact_mod_cast hpower.ge
        have hfactor : (2 : ℚ) ^ 51 ≤ m - below m e / 4 := by linarith
        calc (2 : ℚ) ^ (e + 51) = 2 ^ 51 * 2 ^ e := by rw [zpow_add₀ htwo, mul_comm]; rfl
          _ ≤ (m - below m e / 4) * 2 ^ e := by gcongr
          _ ≤ num / den := hmin
      have := (zpow_lt_zpow_iff_right₀ hone).mp hup
      have := (zpow_lt_zpow_iff_right₀ hone).mp hdown
      omega
    rw [nearestBits_of_whole hnum hden he hwhole]
    omega

end

end Bytecode.Double
