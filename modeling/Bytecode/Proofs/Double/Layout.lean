import Bytecode.Double.Layout
import Bytecode.Proofs.Text.Numeral

/-! The digits of a decimal around its point, and the number that they stand for. -/

namespace Bytecode.Double
open Text

section
variable (d : Decimal)

theorem digits_places : Digits d.places.whole ∧ Digits d.places.fraction := by
  have hdigits := digits_toDigits d.digits
  unfold Decimal.places
  dsimp only
  split
  · exact ⟨digits_replicate 1, (digits_replicate _).append hdigits⟩
  · split
    · exact ⟨hdigits.append (digits_replicate _), fun c hc => by cases hc⟩
    · exact ⟨fun c hc => hdigits c (List.mem_of_mem_take hc), fun c hc => hdigits c (List.mem_of_mem_drop hc)⟩

/-- The digits around the point, read as one number, in units of the last one. -/
theorem places_value :
    (readDigits (d.places.whole ++ d.places.fraction) : Rat) * 10 ^ (-(d.places.fraction.length : Int)) = d.value := by
  have hread := readDigits_toDigits d.digits
  unfold Decimal.places Decimal.value
  dsimp only
  generalize Nat.toDigits 10 d.digits = digits at *
  split
  · rename_i hpoint
    have hscale :
        -((List.replicate (-((digits.length : Int) + d.exponent)).toNat '0' ++ digits).length : Int) = d.exponent := by
      simp only [List.length_append, List.length_replicate]
      push_cast
      omega
    rw [hscale, readDigits_append, readDigits_append, hread, readDigits_replicate]
    simp [readDigits]
  · split
    · rename_i hexp
      obtain ⟨k, hk⟩ := Int.eq_ofNat_of_zero_le hexp
      rw [List.append_nil, readDigits_append, hread, readDigits_replicate, hk]
      simp
    · rename_i hpoint hexp
      have hscale : -((digits.drop ((digits.length : Int) + d.exponent).toNat).length : Int) = d.exponent := by
        rw [List.length_drop]
        omega
      rw [hscale, List.take_append_drop, hread]

theorem places_strict (hd : 0 < d.digits ∨ d = ⟨0, 0⟩) :
    d.places.whole ≠ [] ∧ (d.places.whole.head? = some '0' → d.places.whole.length = 1) := by
  have hne : Nat.toDigits 10 d.digits ≠ [] := Nat.toDigits_ne_nil
  have hzero : (Nat.toDigits 10 d.digits).head? = some '0' → d = ⟨0, 0⟩ :=
    fun hhead => hd.resolve_left fun hpos => head_toDigits hpos hhead
  unfold Decimal.places
  dsimp only
  split
  · exact ⟨nofun, fun _ => rfl⟩
  · rename_i hpoint
    split
    · refine ⟨by simp [hne], fun hhead => ?_⟩
      rw [List.head?_append_of_ne_nil _ hne] at hhead
      rw [hzero hhead]
      rfl
    · rename_i hexp
      have hpos : ((Nat.toDigits 10 d.digits).length + d.exponent).toNat ≠ 0 := by omega
      refine ⟨by simp [hne, hpos], fun hhead => ?_⟩
      rw [List.head?_take, if_neg hpos] at hhead
      rw [hzero hhead] at hexp
      exact absurd le_rfl hexp

end

/-- The shortest decimal of a finite double has no digits only if the double is zero. -/
theorem digits_shortest (tie : Tie) (m : Nat) (e : Int) : 0 < (shortest tie m e).digits ∨ shortest tie m e = ⟨0, 0⟩ := by
  rcases Nat.eq_zero_or_pos m with rfl | hm
  · exact Or.inr rfl
  · have hpos := (shortest_rounds (e := e) hm tie).pos hm
    refine Or.inl (Nat.pos_of_ne_zero fun hzero => ?_)
    rw [Decimal.value, hzero] at hpos
    simp at hpos

end Bytecode.Double
