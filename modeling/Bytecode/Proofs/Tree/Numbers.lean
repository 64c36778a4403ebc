import Bytecode.Json.Basic
import Bytecode.Proofs.Double.Layout
import Bytecode.Tree.Writer
import Mathlib

/-! Numbers in written trees. The numeral that is written for an integer or for a finite double is strict, and it is read back
    as the same integer or double. -/

namespace Bytecode.Tree
open Text Double

/-! ### Integers -/

theorem intJson_reads (n : Int64) : ∃ k : Numeral, intJson n = .num k ∧ k.Strict ∧ (Json.num k).int64? = some n := by
  refine ⟨_, rfl, ?_, ?_⟩
  · refine ⟨digits_toDigits _, Nat.toDigits_ne_nil, fun hhead => ?_, by simp [Digits], by simp⟩
    by_cases hzero : n.toInt.natAbs = 0
    · simp [hzero]
    · exact absurd hhead (head_toDigits (Nat.pos_of_ne_zero hzero))
  · have hvalue : Numeral.toInt { negative := decide (n.toInt < 0), whole := Nat.toDigits 10 n.toInt.natAbs } = n.toInt := by
      simp only [Numeral.toInt, digitsValue_eq, readDigits_toDigits, decide_eq_true_eq]
      split <;> omega
    have hsign : (decide (n.toInt < 0) && n.toInt == 0) = false := by
      rcases eq_or_ne n.toInt 0 with hzero | hne
      · simp [hzero]
      · simp [hne]
    simp [Json.int64?, hvalue, hsign, int64?_iff]

/-! ### Doubles -/

section
variable (negative : Bool) (d : Decimal)

theorem decimalNumeral_magnitude : (decimalNumeral negative d).magnitude = d.value := by
  unfold decimalNumeral
  split
  · dsimp only
    have hvalue := places_value d
    generalize d.places = places at *
    unfold Numeral.magnitude Numeral.scale
    simp only [Option.elim_none, zero_sub]
    split
    · rename_i hempty
      rw [List.isEmpty_iff] at hempty
      rw [hempty, List.append_nil] at hvalue
      rw [readDigits_append, ← hvalue]
      simp [readDigits]
    · exact hvalue
  · have hread := readDigits_toDigits d.digits
    have hlength : 0 < (Nat.toDigits 10 d.digits).length := Nat.length_toDigits_pos
    unfold Numeral.magnitude Numeral.scale Decimal.value
    simp only [Option.elim_some, Exponent.value, digitsValue_eq, readDigits_toDigits, List.take_append_drop, hread,
      decide_eq_true_eq, List.length_drop]
    congr 2
    unfold Decimal.leading
    split <;> omega

theorem decimalNumeral_strict (hd : 0 < d.digits ∨ d = ⟨0, 0⟩) : (decimalNumeral negative d).Strict := by
  unfold decimalNumeral
  split
  · obtain ⟨hwhole, hfraction⟩ := digits_places d
    obtain ⟨hpresent, hleading⟩ := places_strict d hd
    refine ⟨hwhole, hpresent, hleading, ?_, nofun⟩
    dsimp only
    split
    · exact digits_replicate 1
    · exact hfraction
  · have hdigits := digits_toDigits d.digits
    have hlength : 0 < (Nat.toDigits 10 d.digits).length := Nat.length_toDigits_pos
    have hone : ((Nat.toDigits 10 d.digits).take 1).length = 1 := by
      rw [List.length_take]
      omega
    refine ⟨fun c hc => hdigits c (List.mem_of_mem_take hc), List.ne_nil_of_length_eq_add_one hone, fun _ => hone,
      fun c hc => hdigits c (List.mem_of_mem_drop hc), ?_⟩
    rintro exponent ⟨⟩
    exact ⟨digits_toDigits _, Nat.toDigits_ne_nil⟩

end

theorem decimalNumeral_bits {m : Nat} {e : Int} (hc : Canonical m e) (negative : Bool) :
    (decimalNumeral negative (shortest .even m e)).magnitudeBits = (e + 1074).toNat * 2 ^ 52 + m := by
  rcases Nat.eq_zero_or_pos m with rfl | hm
  · obtain rfl : e = -1074 := hc.leading.resolve_left (by norm_num)
    cases negative <;> rfl
  · have hstrict := decimalNumeral_strict negative _ (digits_shortest .even m e)
    refine Numeral.magnitudeBits_eq (hstrict.whole.append hstrict.fraction) hc hm ?_
    rw [decimalNumeral_magnitude]
    exact shortest_rounds hm .even

theorem decimalNumeral_negative (negative : Bool) (d : Decimal) : (decimalNumeral negative d).negative = negative := by
  unfold decimalNumeral
  split <;> rfl

/-- The numeral of a finite double is strict, and the double is the nearest one to it. -/
theorem doubleNumeral?_reads {x : Float} (hx : isFinite x = true) :
    ∃ n, doubleNumeral? x = some n ∧ n.Strict ∧ n.toDouble = x := by
  obtain ⟨negative, m, e, hparts, hc, hbits⟩ := parts_of_finite hx
  refine ⟨_, by rw [doubleNumeral?, hparts], decimalNumeral_strict negative _ (digits_shortest .even m e), ?_⟩
  have hword : UInt64.ofNat (if negative then Nat.pow 2 63 + ((e + 1074).toNat * 2 ^ 52 + m)
      else (e + 1074).toNat * 2 ^ 52 + m) = x.toBits := by
    rw [← UInt64.ofNat_toNat (x := x.toBits), hbits]
    cases negative <;> simp
  rw [Numeral.toDouble, decimalNumeral_negative, decimalNumeral_bits hc, ofMagnitude, hword, Float.ofBits_toBits]

end Bytecode.Tree
