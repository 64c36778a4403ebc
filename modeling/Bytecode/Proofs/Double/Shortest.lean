import Bytecode.Double.Parts
import Bytecode.Proofs.Double.Rounding
import Mathlib.Tactic.FieldSimp

/-! The shortest decimal of a double rounds to the double, and so does every decimal that the search for it accepts. -/

namespace Bytecode.Double

section
variable {m : Nat} {e : Int} {d : Decimal}

/-! ### Decimals that read back -/

theorem compareQuarters_eq (d : Decimal) (quarters : Nat) (e : Int) :
    (compareQuarters d quarters e = .lt ↔ d.value < quarters * 2 ^ (e - 2)) ∧
      (compareQuarters d quarters e = .eq ↔ d.value = quarters * 2 ^ (e - 2)) ∧
      (compareQuarters d quarters e = .gt ↔ quarters * 2 ^ (e - 2) < d.value) := by
  unfold compareQuarters Decimal.value
  dsimp only
  rw [two_zpow, ten_zpow, mul_div_assoc', mul_div_assoc', div_lt_div_iff₀ (by positivity) (by positivity),
    div_lt_div_iff₀ (by positivity) (by positivity), div_eq_div_iff (by positivity) (by positivity), Nat.compare_eq_lt,
    Nat.compare_eq_gt, Nat.compare_eq_eq]
  simp only [Nat.pow_eq]
  refine ⟨?_, ?_, ?_⟩ <;> exact_mod_cast Iff.rfl

theorem readsBack_iff : readsBack m e d = true ↔ Rounds m e d.value := by
  obtain ⟨-, hloweq, hlowgt⟩ := compareQuarters_eq d (4 * m - below m e) e
  obtain ⟨hhighlt, hhigheq, -⟩ := compareQuarters_eq d (4 * m + 2) e
  unfold readsBack
  simp only [Nat.pow_eq, Bool.and_eq_true, Bool.or_eq_true, beq_iff_eq]
  rw [← below, hloweq, hlowgt, hhighlt, hhigheq]
  exact ⟨fun h => ⟨h.1, h.2⟩, fun h => ⟨h.low, h.high⟩⟩

/-! ### The search -/

theorem readsBack_of_multiple? {tie : Tie} {power : Int} (h : multiple? tie m e power = some d) : readsBack m e d = true := by
  unfold multiple? at h
  dsimp only at h
  split at h
  · rename_i hlow hhigh
    split at h
    · cases h
      exact hlow
    · cases h
      exact hhigh
    · cases h
      exact hhigh
    · cases h
      split
      · exact hlow
      · exact hhigh
  · cases h
    assumption
  · cases h
    assumption
  · cases h

/-- A double rounds to itself. -/
theorem rounds_self (hm : 0 < m) : Rounds m e (m * 2 ^ e) := by
  have hpos : (0 : ℚ) < 2 ^ e := by positivity
  have hbelow : below m e ≤ 4 * m ∧ 0 < below m e := by
    unfold below
    split <;> omega
  have hpos' : (0 : ℚ) < below m e := by exact_mod_cast hbelow.2
  constructor
  · left
    rw [quarter_zpow, Nat.cast_sub hbelow.1]
    push_cast
    nlinarith
  · left
    rw [quarter_zpow]
    push_cast
    nlinarith

theorem exact_value (m : Nat) (e : Int) :
    Decimal.value ⟨m * Nat.pow 2 e.toNat * Nat.pow 5 (-e).toNat, min e 0⟩ = m * 2 ^ e := by
  unfold Decimal.value
  simp only [Nat.pow_eq]
  rcases le_total 0 e with he | he
  · obtain ⟨n, rfl⟩ := Int.eq_ofNat_of_zero_le he
    simp
  · obtain ⟨n, hn⟩ := Int.eq_ofNat_of_zero_le (Int.neg_nonneg_of_nonpos he)
    obtain rfl : e = -n := by omega
    have hten : (10 : ℚ) ^ n = 2 ^ n * 5 ^ n := by rw [← mul_pow]; norm_num
    simp only [Int.toNat_neg_natCast, pow_zero, mul_one, neg_neg, Int.toNat_natCast, min_eq_left he, zpow_neg,
      zpow_natCast, hten]
    push_cast
    field_simp

theorem search_rounds (hm : 0 < m) (tie : Tie) (tries : Nat) (power : Int) :
    Rounds m e (search tie m e tries power).value := by
  induction tries generalizing power with
  | zero =>
    rw [search, exact_value]
    exact rounds_self hm
  | succ tries ih =>
    rw [search]
    split
    · rename_i d hd
      exact readsBack_iff.mp (readsBack_of_multiple? hd)
    · exact ih _

/-- The shortest decimal of a double rounds to the double. -/
theorem shortest_rounds (hm : 0 < m) (tie : Tie) : Rounds m e (shortest tie m e).value := by
  rw [shortest, if_neg hm.ne']
  exact search_rounds hm tie _ _

theorem Rounds.pos {q : ℚ} (h : Rounds m e q) (hm : 0 < m) : 0 < q := by
  have hpos : (0 : ℚ) < 2 ^ e := by positivity
  have hm' : (1 : ℚ) ≤ m := by exact_mod_cast hm
  have hbelow : (below m e : ℚ) ≤ 2 := by exact_mod_cast (by unfold below; split <;> omega : below m e ≤ 2)
  have := (h.bounds hm).1
  nlinarith

end

/-! ### Parts -/

/-- The bits of a finite double are those of its sign and of its parts. -/
theorem parts_of_finite {x : Float} (hx : isFinite x = true) :
    ∃ negative m e, parts x = .finite negative m e ∧ Canonical m e ∧
      x.toBits.toNat = (if negative then 2 ^ 63 else 0) + ((e + 1074).toNat * 2 ^ 52 + m) := by
  have hlt : x.toBits.toNat < 2 ^ 64 := x.toBits.toNat_lt
  unfold isFinite infinityBits at hx
  unfold parts partsOfBits
  simp only [Nat.pow_eq, decide_eq_true_eq] at hx ⊢
  generalize x.toBits.toNat = bits at *
  have hfinite : bits / 2 ^ 52 % 2 ^ 11 ≠ 2047 := by omega
  rw [if_neg hfinite]
  have hsign : (if decide (bits / 2 ^ 63 % 2 = 1) = true then 2 ^ 63 else 0) = bits / 2 ^ 63 * 2 ^ 63 := by
    simp only [decide_eq_true_eq]
    split <;> omega
  split
  · refine ⟨_, _, _, rfl, ⟨by omega, by omega, by omega, Or.inr rfl⟩, ?_⟩
    rw [hsign]
    omega
  · refine ⟨_, _, _, rfl, ⟨by omega, by omega, by omega, Or.inl (by omega)⟩, ?_⟩
    rw [hsign]
    omega

end Bytecode.Double
