import Bytecode.Proofs.Double.Shortest
import Bytecode.Text.Numeral
import Mathlib.Data.List.TakeWhile
import Mathlib.Tactic.Ring

/-! Numerals and their numbers. The double nearest to a numeral is the one that its number rounds to, however the digits are
    spread over whole, fraction and exponent. -/

namespace Bytecode

namespace Double
section
variable {m : Nat} {e : Int} {q : ℚ}

theorem Rounds.lt_ten (h : Rounds m e q) (hc : Canonical m e) (hm : 0 < m) : q < (10 : ℚ) ^ (309 : Int) := by
  have hm' : (m : ℚ) + 1 ≤ 2 ^ 53 := by exact_mod_cast hc.mantissa
  have hpos : (0 : ℚ) < 2 ^ e := by positivity
  have hten : (2 : ℚ) ^ 53 * 2 ^ (971 : Int) < 10 ^ (309 : Int) := by
    have hnat : 2 ^ 53 * 2 ^ 971 < 10 ^ 309 := by decide +kernel
    exact_mod_cast hnat
  have he : (2 : ℚ) ^ e ≤ 2 ^ (971 : Int) := zpow_le_zpow_right₀ (by norm_num) hc.high
  calc q ≤ ((m : ℚ) + 1 / 2) * 2 ^ e := (h.bounds hm).2
    _ ≤ 2 ^ 53 * 2 ^ (971 : Int) := by gcongr; linarith
    _ < 10 ^ (309 : Int) := hten

theorem Rounds.ten_le (h : Rounds m e q) (hc : Canonical m e) (hm : 0 < m) : (10 : ℚ) ^ (-324 : Int) ≤ q := by
  have hm' : (1 : ℚ) ≤ m := by exact_mod_cast hm
  have hbelow : (below m e : ℚ) ≤ 2 := by exact_mod_cast (by unfold below; split <;> omega : below m e ≤ 2)
  have hten : (10 : ℚ) ^ (-324 : Int) ≤ 1 / 2 * 2 ^ (-1074 : Int) := by
    have hnat : 2 * 2 ^ 1074 ≤ 10 ^ 324 := by decide +kernel
    rw [zpow_neg, zpow_neg, one_div, ← mul_inv]
    exact inv_anti₀ (by positivity) (by exact_mod_cast hnat)
  have hfactor : 1 / 2 ≤ (m : ℚ) - below m e / 4 := by linarith
  have he : (2 : ℚ) ^ (-1074 : Int) ≤ 2 ^ e := zpow_le_zpow_right₀ (by norm_num) hc.low
  calc (10 : ℚ) ^ (-324 : Int) ≤ 1 / 2 * 2 ^ (-1074 : Int) := hten
    _ ≤ ((m : ℚ) - below m e / 4) * 2 ^ e := by gcongr
    _ ≤ q := (h.bounds hm).1

end
end Double

namespace Text

/-! ### Rows of digits -/

def Digits (cs : List Char) : Prop :=
  ∀ c ∈ cs, c.isDigit = true

theorem Digits.append {a b : List Char} (ha : Digits a) (hb : Digits b) : Digits (a ++ b) :=
  List.forall_mem_append.mpr ⟨ha, hb⟩

theorem digits_toDigits (n : Nat) : Digits (Nat.toDigits 10 n) :=
  fun _ hc => Nat.isDigit_of_mem_toDigits (by norm_num) (by norm_num) hc

theorem digits_replicate (n : Nat) : Digits (List.replicate n '0') := by
  intro c hc
  rw [List.eq_of_mem_replicate hc]
  rfl

theorem readDigits_eq (cs : List Char) : readDigits cs = Nat.ofDigitChars 10 cs 0 :=
  Nat.ofDigitChars_eq_foldl.symm

theorem readDigits_toDigits (n : Nat) : readDigits (Nat.toDigits 10 n) = n := by
  rw [readDigits_eq, Nat.ofDigitChars_ten_toDigits]

theorem readDigits_replicate (n : Nat) : readDigits (List.replicate n '0') = 0 := by
  rw [readDigits_eq, Nat.ofDigitChars_replicate_zero, Nat.mul_zero]

theorem readDigits_cons (c : Char) (cs : List Char) :
    readDigits (c :: cs) = (c.toNat - '0'.toNat) * 10 ^ cs.length + readDigits cs := by
  have h := readDigits_append [c] cs
  rw [List.singleton_append] at h
  rw [h, Nat.pow_eq]
  simp [readDigits]

theorem isDigit_iff {c : Char} : c.isDigit = true ↔ 48 ≤ c.toNat ∧ c.toNat ≤ 57 := by
  simp [Char.isDigit, UInt32.le_iff_toNat_le]

theorem readDigits_lt {cs : List Char} (h : Digits cs) : readDigits cs < 10 ^ cs.length := by
  induction cs with
  | nil => simp [readDigits]
  | cons c cs ih =>
    obtain ⟨hc, hcs⟩ := List.forall_mem_cons.mp h
    have hdigit := isDigit_iff.mp hc
    have hvalue : c.toNat - '0'.toNat ≤ 9 := by
      show c.toNat - 48 ≤ 9
      omega
    rw [readDigits_cons, List.length_cons, Nat.pow_succ]
    have := ih hcs
    nlinarith

/-- A row of digits that does not start with a zero is at least the power of ten of its first digit. -/
theorem le_readDigits {c : Char} {cs : List Char} (hc : c.isDigit = true) (hzero : c ≠ '0') :
    10 ^ cs.length ≤ readDigits (c :: cs) := by
  have hdigit := isDigit_iff.mp hc
  have hne : c.toNat ≠ 48 := by
    intro heq
    exact hzero (Char.toNat_inj.mp heq)
  have hvalue : 1 ≤ c.toNat - '0'.toNat := by
    show 1 ≤ c.toNat - 48
    omega
  rw [readDigits_cons]
  nlinarith [Nat.pos_of_ne_zero (pow_ne_zero cs.length (show (10 : Nat) ≠ 0 by norm_num))]

theorem eq_replicate_append_dropWhile (cs : List Char) :
    cs = List.replicate (cs.takeWhile (· == '0')).length '0' ++ cs.dropWhile (· == '0') := by
  have hzeros : cs.takeWhile (· == '0') = List.replicate (cs.takeWhile (· == '0')).length '0' := by
    refine List.eq_replicate_iff.mpr ⟨rfl, fun c hc => ?_⟩
    simpa using List.mem_takeWhile_imp hc
  rw [← hzeros, List.takeWhile_append_dropWhile]

theorem head_toDigits {n : Nat} (hn : 0 < n) : (Nat.toDigits 10 n).head? ≠ some '0' := by
  intro hhead
  obtain ⟨rest, hrest⟩ := List.head?_eq_some_iff.mp hhead
  have hread := readDigits_toDigits n
  have hdigits := digits_toDigits n
  rw [hrest] at hread hdigits
  rw [readDigits_cons] at hread
  have hlt := readDigits_lt (List.forall_mem_cons.mp hdigits).2
  have hn' : n < 10 ^ rest.length := by simpa [← hread] using hlt
  -- A first digit that does not count would make the row longer than its number needs.
  rcases Nat.eq_zero_or_pos rest.length with hzero | hpos
  · rw [hzero] at hn'
    omega
  · have hlength := (Nat.length_toDigits_le_iff (b := 10) (by norm_num) hpos).mpr hn'
    rw [hrest, List.length_cons] at hlength
    omega

namespace Numeral

/-- The digits stand where they stand in strict numerals: some before the point, without a superfluous zero in front, and
some in every exponent. -/
structure Strict (n : Numeral) : Prop where
  whole : Digits n.whole
  present : n.whole ≠ []
  leading : n.whole.head? = some '0' → n.whole.length = 1
  fraction : Digits n.fraction
  exponent : ∀ e ∈ n.exponent, Digits e.digits ∧ e.digits ≠ []

/-- The number that a numeral stands for, without its sign. -/
def magnitude (n : Numeral) : ℚ :=
  readDigits (n.whole ++ n.fraction) * 10 ^ n.scale

/-- The significant digits stand for the same number. They do not start with a zero. -/
theorem significant_spec (n : Numeral) :
    (readDigits n.significant.1 : ℚ) * 10 ^ n.significant.2 = n.magnitude ∧
      (∀ c ∈ n.significant.1, c ∈ n.whole ++ n.fraction) ∧ n.significant.1.head? ≠ some '0' := by
  unfold significant magnitude
  dsimp only
  generalize n.whole ++ n.fraction = all
  -- Zeros in front do not count, and each zero behind is a factor of ten.
  have hfront := eq_replicate_append_dropWhile all
  generalize hdigits : all.dropWhile (· == '0') = digits at *
  have hback := eq_replicate_append_dropWhile digits.reverse
  generalize hkept : (digits.reverse.dropWhile (· == '0')).reverse = kept
  generalize (digits.reverse.takeWhile (· == '0')).length = zeros at hback
  have hsplit : digits = kept ++ List.replicate zeros '0' := by
    rw [← List.reverse_reverse digits, hback, List.reverse_append, hkept, List.reverse_replicate]
  have hvalue : readDigits all = readDigits kept * 10 ^ zeros := by
    rw [hfront, readDigits_append, readDigits_replicate, hsplit, readDigits_append, readDigits_replicate, Nat.pow_eq]
    simp
  have hlength : digits.length - kept.length = zeros := by
    rw [hsplit]
    simp
  refine ⟨?_, fun c hc => ?_, fun hzero => ?_⟩
  · rw [hvalue, hlength, zpow_add₀ (by norm_num), zpow_natCast]
    push_cast
    ring
  · rw [hfront, hsplit]
    simp [hc]
  · cases kept with
    | nil => cases hzero
    | cons c kept =>
      have hhead := List.head?_dropWhile_not (· == '0') all
      rw [hdigits, hsplit] at hhead
      have hne : (c == '0') = false := hhead
      cases hzero
      cases hne

/-- The double nearest to a numeral is the one to which its number rounds. -/
theorem magnitudeBits_eq {n : Numeral} {m : Nat} {e : Int} (hn : Digits (n.whole ++ n.fraction)) (hc : Double.Canonical m e)
    (hm : 0 < m) (h : Double.Rounds m e n.magnitude) : n.magnitudeBits = (e + 1074).toNat * 2 ^ 52 + m := by
  have hpos := h.pos hm
  obtain ⟨hvalue, hmem, hhead⟩ := n.significant_spec
  unfold magnitudeBits
  generalize n.significant = s at *
  obtain ⟨digits, exponent⟩ := s
  dsimp only at *
  cases digits with
  | nil =>
    simp [readDigits] at hvalue
    linarith
  | cons c rest =>
    have hdigits : Digits (c :: rest) := fun x hx => hn x (hmem x hx)
    have hlow : (10 : ℚ) ^ (rest.length + exponent) ≤ n.magnitude := by
      have hle : ((10 ^ rest.length : Nat) : ℚ) ≤ readDigits (c :: rest) := by
        exact_mod_cast le_readDigits (hdigits c List.mem_cons_self) fun heq => hhead (by rw [heq]; rfl)
      rw [← hvalue, zpow_add₀ (by norm_num), zpow_natCast]
      push_cast at hle
      gcongr
    have hhigh : n.magnitude < (10 : ℚ) ^ (rest.length + 1 + exponent) := by
      have hlt : (readDigits (c :: rest) : ℚ) < ((10 ^ (rest.length + 1) : Nat) : ℚ) := by
        exact_mod_cast readDigits_lt hdigits
      rw [← hvalue, zpow_add₀ (by norm_num)]
      push_cast at hlt
      gcongr
      exact_mod_cast hlt
    -- The number lies between the least and the largest double, which bounds its order of magnitude.
    have hten : (1 : ℚ) < 10 := by norm_num
    have hle : (rest.length : Int) + exponent < 309 :=
      (zpow_lt_zpow_iff_right₀ hten).mp (hlow.trans_lt (h.lt_ten hc hm))
    have hge : -324 < (rest.length : Int) + 1 + exponent :=
      (zpow_lt_zpow_iff_right₀ hten).mp ((h.ten_le hc hm).trans_lt hhigh)
    rw [if_neg (by simp; omega), if_neg (by simp; omega), Double.nearestDecimalBits, digitsValue_eq]
    refine Double.nearestBits_eq (by rw [Nat.pow_eq]; positivity) hc hm ?_
    convert h
    rw [← hvalue, Double.ten_zpow, Nat.pow_eq, Nat.pow_eq]
    push_cast
    rw [mul_div_assoc]

end Numeral

theorem int64?_iff {m : Int} {n : Int64} : int64? m = some n ↔ m = n.toInt := by
  unfold int64?
  constructor
  · intro h
    obtain ⟨⟨hlow, hhigh⟩, hn⟩ := Option.ite_none_right_eq_some.mp h
    cases hn
    exact (Int64.toInt_ofInt_of_le hlow (Int.lt_add_one_of_le hhigh)).symm
  · rintro rfl
    rw [if_pos ⟨n.le_toInt, Int.le_of_lt_add_one n.toInt_lt⟩, Int64.ofInt_toInt]

end Text

end Bytecode
