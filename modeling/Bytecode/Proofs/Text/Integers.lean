import Bytecode.Proofs.Machine.Operands
import Bytecode.Proofs.Text.Places

/-! Integers at the start of a text. Converting a text to an integer reads an optional sign and all digits behind it, however
    many there are and whatever follows them, and refuses the text if there are none or if their number is out of range.
    The text of an integer therefore reads back in front of every text that does not go on with a digit. -/

namespace Bytecode.Text

/-- A text starts with an optional sign and a row of digits, which ends where no further digit follows. -/
structure StartsWithInt (s : String) (sign digits rest : List Char) : Prop where
  parts : s.toList = sign ++ (digits ++ rest)
  sign : sign = [] ∨ sign = ['+'] ∨ sign = ['-']
  present : digits ≠ []
  digits : ∀ c ∈ digits, c.isDigit = true
  ended : ∀ c ∈ rest.head?, c.isDigit = false

/-- The number that digits behind a sign stand for. -/
def signedValue (sign digits : List Char) : Int :=
  if sign = ['-'] then -(Nat.ofDigitChars 10 digits 0 : Int) else Nat.ofDigitChars 10 digits 0

section
variable {s : String} {sign digits rest cs : List Char}

namespace StartsWithInt

theorem splitDigits_eq (h : StartsWithInt s sign digits rest) : splitDigits (splitSign s.toList).2 = (digits, rest) := by
  rw [h.parts, (splitSign_of_digits h.sign h.digits h.present rest).1]
  exact Json.splitDigits_complete h.digits h.ended

theorem leadingInt_eq (h : StartsWithInt s sign digits rest) : leadingInt s.toList = sign ++ digits := by
  have hsign : leadingSign s.toList = sign := by
    rw [h.parts]
    exact (splitSign_of_digits h.sign h.digits h.present rest).2
  have hdigits : (splitDigits (splitSign s.toList).2).1 = digits := congrArg Prod.fst h.splitDigits_eq
  rw [leadingInt_of_ne (by rw [hdigits]; exact h.present), hsign, hdigits]

theorem toNat_lt (h : StartsWithInt s sign digits rest) : ∀ c ∈ sign ++ digits, c.toNat < 128 := by
  rw [← h.leadingInt_eq]
  exact toNat_of_mem_leadingInt

theorem append_eq (h : StartsWithInt s sign digits rest) : s.toList = (sign ++ digits) ++ rest := by
  rw [h.parts, List.append_assoc]

theorem beforeEnd?_eq (h : StartsWithInt s sign digits rest) :
    beforeEnd? s (leadingInt s.toList).length = some (sign ++ digits) := by
  have hne : sign ++ digits ≠ [] := fun heq => h.present (List.append_eq_nil_iff.mp heq).2
  rw [h.leadingInt_eq, beforeEnd?_length h.append_eq h.toNat_lt, if_neg hne]

theorem intAtStart?_eq (h : StartsWithInt s sign digits rest) : intAtStart? s = int64? (signedValue sign digits) := by
  have hsplit : splitSign (sign ++ digits) = (decide (sign = ['-']), digits) := by
    simpa using (splitSign_of_digits h.sign h.digits h.present []).1
  have hread : ¬(digits.isEmpty = true ∨ digits.any (!·.isDigit) = true) := by
    simpa [h.present] using h.digits
  have hvalue : Numeral.toInt ⟨decide (sign = ['-']), digits, [], none⟩ = signedValue sign digits := by
    simp [Numeral.toInt, signedValue, digitsValue_eq, readDigits_eq]
  simp only [intAtStart?, intEnd?_eq, Option.bind_eq_bind, Option.bind_some, h.beforeEnd?_eq]
  rw [intOf?, hsplit]
  exact (if_neg hread).trans (congrArg int64? hvalue)

end StartsWithInt

/-- A text starts with an integer, or its integer ends where it starts. -/
theorem startsWithInt_or (s : String) : (∃ sign digits rest, StartsWithInt s sign digits rest) ∨ leadingInt s.toList = [] := by
  obtain ⟨hdigits, hparts⟩ := Json.splitDigits_sound (splitSign s.toList).2
  by_cases hnone : (splitDigits (splitSign s.toList).2).1 = []
  · exact Or.inr (if_pos hnone)
  · refine Or.inl ⟨leadingSign s.toList, _, (splitDigits (splitSign s.toList).2).2, ?_, leadingSign_cases _, hnone, hdigits,
      noDigit_splitDigits _⟩
    rw [← hparts, leadingSign_append]

theorem intAtStart?_eq_none (h : leadingInt s.toList = []) : intAtStart? s = none := by
  have hbefore : beforeEnd? s 0 = none := rfl
  simp [intAtStart?, intEnd?_eq, h, hbefore]

theorem intAtStart?_eq_some_iff {n : Int64} :
    intAtStart? s = some n ↔ ∃ sign digits rest, StartsWithInt s sign digits rest ∧ signedValue sign digits = n.toInt := by
  constructor
  · intro hn
    rcases startsWithInt_or s with ⟨sign, digits, rest, h⟩ | hnone
    · rw [h.intAtStart?_eq] at hn
      exact ⟨sign, digits, rest, h, int64?_iff.mp hn⟩
    · rw [intAtStart?_eq_none hnone] at hn
      cases hn
  · rintro ⟨sign, digits, rest, h, hvalue⟩
    rw [h.intAtStart?_eq]
    exact int64?_iff.mpr hvalue

/-! ### Texts of integers -/

/-- The text of an integer in front of a text that does not go on with a digit. -/
theorem startsWithInt_decimal (n : Int64) {r : String} (hr : ∀ c ∈ r.toList.head?, c.isDigit = false) :
    StartsWithInt (decimal n ++ r) (if n.toInt < 0 then ['-'] else []) (Nat.toDigits 10 n.toInt.natAbs) r.toList where
  parts := by
    have hdecimal : (decimal n).toList = (if n.toInt < 0 then ['-'] else []) ++ Nat.toDigits 10 n.toInt.natAbs := by
      unfold decimal
      cases n.toInt with
      | ofNat m =>
        show m.repr.toList = _
        simp
      | negSucc m =>
        show ("-" ++ m.succ.repr).toList = _
        simp
    rw [String.toList_append, hdecimal, List.append_assoc]
  sign := by split <;> simp
  present := by simp
  digits := digits_toDigits _
  ended := hr

theorem signedValue_decimal (n : Int64) :
    signedValue (if n.toInt < 0 then ['-'] else []) (Nat.toDigits 10 n.toInt.natAbs) = n.toInt := by
  unfold signedValue
  rw [Nat.ofDigitChars_ten_toDigits]
  rcases lt_or_ge n.toInt 0 with hneg | hpos
  · rw [if_pos hneg, if_pos rfl, Int.ofNat_natAbs_of_nonpos hneg.le, neg_neg]
  · rw [if_neg hpos.not_gt, if_neg (by simp), Int.natAbs_of_nonneg hpos]

end

/-! ### Conversion -/

theorem toInt_apply (heap : Heap) (stack : Operands) (s : String) :
    Operation.toInt.apply heap (.str s :: stack) =
      (intAtStart? s).elim (.error .notAnInt) fun n => .ok (.int n :: stack, none) := by
  cases hint : intAtStart? s <;>
    simp [Operation.apply, Value.needPresent, Value.toInt, hint, bind, Except.bind, pure, Except.pure]

theorem toInt_apply_eq_ok_iff {heap : Heap} {stack : Operands} {s : String} {n : Int64} :
    Operation.toInt.apply heap (.str s :: stack) = .ok (.int n :: stack, none) ↔ intAtStart? s = some n := by
  rw [toInt_apply]
  cases intAtStart? s <;> simp

/-- The integer at the start of a text is cut off between two characters, behind its sign and its digits. -/
theorem intEnd?_cuts (s : String) :
    ∃ place number rest, intEnd? s = some place ∧ splitAt? s place = some (number, rest) ∧
      ∀ sign digits rest, StartsWithInt s sign digits rest → number.toList = sign ++ digits := by
  obtain ⟨rest, hrest⟩ := leadingInt_prefix s.toList
  refine ⟨_, _, _, intEnd?_eq s, splitAt?_length hrest.symm toNat_of_mem_leadingInt, fun sign digits rest h => ?_⟩
  rw [String.toList_ofList, h.leadingInt_eq]

/-- A text is converted to an integer exactly if an optional sign and digits stand at its start whose number is in range,
and refused otherwise. The scan looks at the text only within it and between its characters, and cuts it there. The text of
an integer converts back to the integer in front of every text that does not go on with a digit. -/
theorem text_to_int_reads_signed_digits (heap : Heap) (stack : Operands) :
    (∀ s : String,
      (∀ n, Operation.toInt.apply heap (.str s :: stack) = .ok (.int n :: stack, none) ↔
        ∃ sign digits rest, StartsWithInt s sign digits rest ∧ signedValue sign digits = n.toInt) ∧
      ((∀ n, Operation.toInt.apply heap (.str s :: stack) ≠ .ok (.int n :: stack, none)) →
        ∃ fault, Operation.toInt.apply heap (.str s :: stack) = .error fault ∧ fault.kind = .conversion) ∧
      (∀ place, (bytesFrom? s place).isSome = true ↔ String.Pos.Raw.IsValid s ⟨place⟩) ∧
      ∃ place number rest, intEnd? s = some place ∧ splitAt? s place = some (number, rest) ∧
        place ≤ s.utf8ByteSize ∧ String.Pos.Raw.IsValid s ⟨place⟩ ∧
        ∀ sign digits rest, StartsWithInt s sign digits rest → number.toList = sign ++ digits) ∧
    ∀ (n : Int64) (r : String), (∀ c ∈ r.toList.head?, c.isDigit = false) → ∃ text joined,
      Operation.toText.apply heap (.int n :: stack) = .ok (.str text :: stack, none) ∧
        Operation.concat.apply heap (.str r :: .str text :: stack) = .ok (.str joined :: stack, none) ∧
        Operation.toInt.apply heap (.str joined :: stack) = .ok (.int n :: stack, none) := by
  refine ⟨fun s => ⟨fun n => ?_, fun hnone => ?_, fun place => bytesFrom?_isSome_iff, ?_⟩, fun n r hr => ?_⟩
  · rw [toInt_apply_eq_ok_iff, intAtStart?_eq_some_iff]
  · cases hint : intAtStart? s with
    | none => exact ⟨.notAnInt, by rw [toInt_apply, hint]; rfl, rfl⟩
    | some n => exact absurd (toInt_apply_eq_ok_iff.mpr hint) (hnone n)
  · obtain ⟨place, number, rest, hend, hsplit, hnumber⟩ := intEnd?_cuts s
    have hvalid := splitAt?_isSome_iff.mp (Option.isSome_of_eq_some hsplit)
    exact ⟨place, number, rest, hend, hsplit, hvalid.le_rawEndPos, hvalid, hnumber⟩
  · refine ⟨decimal n, decimal n ++ r, rfl, rfl, ?_⟩
    rw [toInt_apply_eq_ok_iff, intAtStart?_eq_some_iff]
    exact ⟨_, _, _, startsWithInt_decimal n hr, signedValue_decimal n⟩

/-- Zeros in front do not count and what follows the digits is passed over; the least integer reads back in front of a
letter of two bytes. -/
theorem least_int_reads_back :
    StartsWithInt "+007é" ['+'] ['0', '0', '7'] ['é'] ∧
      Operation.toInt.apply {} [.str "+007é"] = .ok ([.int 7], none) ∧
      (∀ c ∈ "é5".toList.head?, c.isDigit = false) ∧ ∃ text joined,
        Operation.toText.apply {} [.int Int64.minValue] = .ok ([.str text], none) ∧
          Operation.concat.apply {} [.str "é5", .str text] = .ok ([.str joined], none) ∧
          Operation.toInt.apply {} [.str joined] = .ok ([.int Int64.minValue], none) := by
  have hstarts : StartsWithInt "+007é" ['+'] ['0', '0', '7'] ['é'] :=
    ⟨by simp, Or.inr (Or.inl rfl), by simp, by simp [Char.isDigit], by simp [Char.isDigit]⟩
  have hletter : ∀ c ∈ "é5".toList.head?, c.isDigit = false := by simp [Char.isDigit]
  obtain ⟨hread, hback⟩ := text_to_int_reads_signed_digits {} []
  exact ⟨hstarts, ((hread "+007é").1 7).mpr ⟨_, _, _, hstarts, by decide⟩, hletter, hback _ _ hletter⟩

end Bytecode.Text
