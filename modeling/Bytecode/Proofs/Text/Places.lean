import Bytecode.Proofs.Json.Grammar
import Bytecode.Text.Scan

/-! Places in a text. A text can be split at a place exactly if the place lies between two of its characters
    (`splitAt?_eq_some_iff`), and from there on the bytes are those of the characters behind it. Signs, digits, points and
    marks have bytes of their own that occur in no other character, so a scan of the bytes finds what a scan of the
    characters finds. -/

namespace Bytecode.Text
open Json (NoDigit)

/-! ### Splitting -/

theorem pos?_eq_some_iff {s : String} {place : String.Pos.Raw} {p : s.Pos} : s.pos? place = some p ↔ p.offset = place := by
  unfold String.pos? String.Slice.pos?
  constructor
  · intro h
    split at h
    · cases h
      rfl
    · cases h
  · rintro rfl
    rw [dif_pos (String.Pos.Raw.isValidForSlice_eq_true_iff.mpr p.isValid.toSlice)]
    rfl

theorem splitAt?_eq_some_iff {s a b : String} {place : Nat} :
    splitAt? s place = some (a, b) ↔ s = a ++ b ∧ place = a.utf8ByteSize := by
  unfold splitAt?
  constructor
  · intro h
    obtain ⟨p, hp, hparts⟩ := Option.map_eq_some_iff.mp h
    cases hparts
    have hsplits := p.splits
    have hoffset := (pos?_eq_some_iff.mp hp).symm.trans hsplits.offset_eq_rawEndPos
    exact ⟨hsplits.eq_append, congrArg String.Pos.Raw.byteIdx hoffset⟩
  · rintro ⟨hs, rfl⟩
    have hvalid : String.Pos.Raw.IsValid s a.rawEndPos := String.Pos.Raw.isValid_iff_exists_append.mpr ⟨a, b, hs, rfl⟩
    have hsplits : (s.pos a.rawEndPos hvalid).Splits a b := ⟨hs, rfl⟩
    have hpos : s.pos? ⟨a.utf8ByteSize⟩ = some (s.pos a.rawEndPos hvalid) := pos?_eq_some_iff.mpr rfl
    rw [hpos, Option.map_some, hsplits.copy_sliceTo_eq, hsplits.copy_sliceFrom_eq]

theorem splitAt?_isSome_iff {s : String} {place : Nat} :
    (splitAt? s place).isSome = true ↔ String.Pos.Raw.IsValid s ⟨place⟩ := by
  rw [Option.isSome_iff_exists, Prod.exists, String.Pos.Raw.isValid_iff_exists_append]
  refine exists_congr fun a => exists_congr fun b => ?_
  rw [splitAt?_eq_some_iff]
  exact and_congr_right fun _ => ⟨congrArg _, congrArg String.Pos.Raw.byteIdx⟩

/-- A scan fails if it looks outside a text or into a character. -/
theorem bytesFrom?_isSome_iff {s : String} {place : Nat} :
    (bytesFrom? s place).isSome = true ↔ String.Pos.Raw.IsValid s ⟨place⟩ := by
  rw [bytesFrom?, Option.isSome_map, splitAt?_isSome_iff]

/-! ### Bytes of characters -/

/-- The bytes of characters one after the other. -/
def bytesOf (cs : List Char) : List UInt8 :=
  cs.flatMap String.utf8EncodeChar

@[simp] theorem bytesOf_nil : bytesOf [] = [] := rfl

@[simp] theorem bytesOf_cons (c : Char) (cs : List Char) : bytesOf (c :: cs) = String.utf8EncodeChar c ++ bytesOf cs := rfl

@[simp] theorem bytesOf_append (a b : List Char) : bytesOf (a ++ b) = bytesOf a ++ bytesOf b :=
  List.flatMap_append

theorem toUTF8_eq (s : String) : s.toUTF8.data.toList = bytesOf s.toList := by
  show s.toByteArray.data.toList = _
  rw [← String.utf8Encode_toList]
  simp [List.utf8Encode, bytesOf]

/-- A character below 128 is a byte by itself; any other one starts with a byte from 128 on. -/
theorem encode_cases (c : Char) :
    (c.toNat < 128 ∧ String.utf8EncodeChar c = [c.toUInt8]) ∨
      128 ≤ c.toNat ∧ ∃ b rest, String.utf8EncodeChar c = b :: rest ∧ 128 ≤ b.toNat := by
  have hnat : c.toNat = c.val.toNat := rfl
  unfold String.utf8EncodeChar
  dsimp only
  split
  · exact Or.inl ⟨by omega, rfl⟩
  · refine Or.inr ⟨by omega, ?_⟩
    split_ifs
    all_goals
      refine ⟨_, _, rfl, ?_⟩
      rw [UInt8.toNat_ofNat']
      omega

theorem toNat_toUInt8 {c : Char} (hc : c.toNat < 128) : c.toUInt8.toNat = c.toNat := by
  show (UInt8.ofNat c.toNat).toNat = _
  rw [UInt8.toNat_ofNat']
  omega

section
variable {a c : Char} {cs : List Char}

theorem toUInt8_inj (ha : a.toNat < 128) (hc : c.toNat < 128) : c.toUInt8 = a.toUInt8 ↔ c = a := by
  rw [← UInt8.toNat_inj, toNat_toUInt8 hc, toNat_toUInt8 ha, Char.toNat_inj]

/-- A byte below 128 comes first where its character comes first. -/
theorem head?_bytesOf (ha : a.toNat < 128) : (bytesOf cs).head? = some a.toUInt8 ↔ cs.head? = some a := by
  cases cs with
  | nil => simp [bytesOf]
  | cons c cs =>
    rw [bytesOf_cons]
    rcases encode_cases c with ⟨hc, hbytes⟩ | ⟨hc, b, rest, hbytes, hb⟩
    · rw [hbytes]
      simpa using toUInt8_inj ha hc
    · have hbyte : b ≠ a.toUInt8 := by
        rintro rfl
        rw [toNat_toUInt8 ha] at hb
        omega
      have hne : c ≠ a := by
        rintro rfl
        omega
      rw [hbytes]
      simp [hbyte, hne]

theorem isDigitByte_iff {b : UInt8} : isDigitByte b = true ↔ 48 ≤ b.toNat ∧ b.toNat ≤ 57 := by
  simp only [isDigitByte, Bool.and_eq_true, decide_eq_true_eq, UInt8.le_iff_toNat_le]
  rfl

/-- There are as many digits among the first bytes as among the first characters. -/
theorem digitsLength_bytesOf (cs : List Char) : digitsLength (bytesOf cs) = (cs.takeWhile Char.isDigit).length := by
  unfold digitsLength
  induction cs with
  | nil => rfl
  | cons c cs ih =>
    rw [bytesOf_cons]
    by_cases hdigit : c.isDigit = true
    · have hnat := isDigit_iff.mp hdigit
      rcases encode_cases c with ⟨hc, hbytes⟩ | ⟨hc, -⟩
      · have hbyte : isDigitByte c.toUInt8 = true := by rwa [isDigitByte_iff, toNat_toUInt8 hc]
        rw [hbytes, List.singleton_append, List.takeWhile_cons_of_pos hbyte, List.takeWhile_cons_of_pos hdigit,
          List.length_cons, List.length_cons, ih]
      · omega
    · rw [List.takeWhile_cons_of_neg hdigit]
      rcases encode_cases c with ⟨hc, hbytes⟩ | ⟨hc, b, rest, hbytes, hb⟩
      · have hbyte : ¬isDigitByte c.toUInt8 = true := by rwa [isDigitByte_iff, toNat_toUInt8 hc, ← isDigit_iff]
        rw [hbytes, List.singleton_append, List.takeWhile_cons_of_neg hbyte]
        rfl
      · have hbyte : ¬isDigitByte b = true := by
          rw [isDigitByte_iff]
          omega
        rw [hbytes, List.cons_append, List.takeWhile_cons_of_neg hbyte]
        rfl

/-- The sign at the start of characters. -/
def leadingSign : List Char → List Char
  | '+' :: _ => ['+']
  | '-' :: _ => ['-']
  | _ => []

theorem leadingSign_append (cs : List Char) : leadingSign cs ++ (splitSign cs).2 = cs := by
  unfold leadingSign
  split
  · rfl
  · rfl
  · rename_i hplus hminus
    rw [splitSign.eq_3 cs hminus hplus, List.nil_append]

theorem signLength_bytesOf (cs : List Char) : signLength (bytesOf cs) = (leadingSign cs).length := by
  have hplus : (bytesOf cs).head? = some '+'.toUInt8 ↔ _ := head?_bytesOf (by decide)
  have hminus : (bytesOf cs).head? = some '-'.toUInt8 ↔ _ := head?_bytesOf (by decide)
  unfold leadingSign
  split
  · rfl
  · rfl
  · rename_i hp hm
    have hnone : ¬((bytesOf cs).head? = some '+'.toUInt8 ∨ (bytesOf cs).head? = some '-'.toUInt8) := by
      rw [hplus, hminus, List.head?_eq_some_iff, List.head?_eq_some_iff]
      rintro (⟨rest, rfl⟩ | ⟨rest, rfl⟩)
      · exact hp rest rfl
      · exact hm rest rfl
    cases hbytes : bytesOf cs with
    | nil => rfl
    | cons b rest =>
      rw [hbytes] at hnone
      exact if_neg (by simpa using hnone)

end

/-! ### Characters behind a place -/

/-- Characters stand behind a place of a text, up to its end. -/
def Stands (s : String) (place : Nat) (cs : List Char) : Prop :=
  ∃ before, s.toList = before ++ cs ∧ place = (bytesOf before).length

theorem utf8ByteSize_eq (s : String) : s.utf8ByteSize = (bytesOf s.toList).length := by
  rw [← toUTF8_eq]
  rfl

namespace Stands
variable {s : String} {place : Nat} {cs front : List Char}

theorem start (s : String) : Stands s 0 s.toList :=
  ⟨[], rfl, rfl⟩

theorem splitAt?_eq {before : List Char} (hs : s.toList = before ++ cs) (hplace : place = (bytesOf before).length) :
    splitAt? s place = some (String.ofList before, String.ofList cs) := by
  rw [splitAt?_eq_some_iff, utf8ByteSize_eq, String.toList_ofList, ← String.ofList_append, ← hs, String.ofList_toList]
  exact ⟨rfl, hplace⟩

theorem bytesFrom?_eq (h : Stands s place cs) : bytesFrom? s place = some (bytesOf cs) := by
  obtain ⟨before, hs, hplace⟩ := h
  rw [bytesFrom?, splitAt?_eq hs hplace, Option.map_some, toUTF8_eq, String.toList_ofList]

/-- Characters below 128 take one byte each. -/
theorem length_bytesOf (hfront : ∀ c ∈ front, c.toNat < 128) : (bytesOf front).length = front.length := by
  induction front with
  | nil => rfl
  | cons c front ih =>
    obtain ⟨hc, hrest⟩ := List.forall_mem_cons.mp hfront
    rcases encode_cases c with ⟨-, hbytes⟩ | ⟨hge, -⟩
    · rw [bytesOf_cons, hbytes, List.length_append, ih hrest, List.length_cons, Nat.add_comm]
      rfl
    · omega

theorem skip (h : Stands s place (front ++ cs)) (hfront : ∀ c ∈ front, c.toNat < 128) :
    Stands s (place + front.length) cs := by
  obtain ⟨before, hs, rfl⟩ := h
  refine ⟨before ++ front, by rw [hs, List.append_assoc], ?_⟩
  rw [bytesOf_append, List.length_append, length_bytesOf hfront]

end Stands

section
variable {s : String} {front rest : List Char}

/-- What is cut off before the end of a number consists of the bytes of the number, which end where its characters do. -/
theorem splitAt?_length (hs : s.toList = front ++ rest) (hfront : ∀ c ∈ front, c.toNat < 128) :
    splitAt? s front.length = some (String.ofList front, String.ofList rest) :=
  Stands.splitAt?_eq hs (Stands.length_bytesOf hfront).symm

theorem beforeEnd?_length (hs : s.toList = front ++ rest) (hfront : ∀ c ∈ front, c.toNat < 128) :
    beforeEnd? s front.length = if front = [] then none else some front := by
  unfold beforeEnd?
  rw [splitAt?_length hs hfront]
  cases front with
  | nil => rfl
  | cons c front => simp

end

/-! ### Digits behind a sign -/

theorem leadingSign_cases (cs : List Char) : leadingSign cs = [] ∨ leadingSign cs = ['+'] ∨ leadingSign cs = ['-'] := by
  unfold leadingSign
  split <;> simp

theorem toNat_of_mem_leadingSign {cs : List Char} : ∀ c ∈ leadingSign cs, c.toNat < 128 := by
  unfold leadingSign
  split <;> simp

theorem Digits.toNat_lt {cs : List Char} (h : Digits cs) : ∀ c ∈ cs, c.toNat < 128 := by
  intro c hc
  have hrange := isDigit_iff.mp (h c hc)
  omega

theorem digits_splitDigits (cs : List Char) : Digits (splitDigits cs).1 :=
  (Json.splitDigits_sound cs).1

/-- No digit follows the leading digits. -/
theorem noDigit_splitDigits (cs : List Char) : NoDigit (splitDigits cs).2 := by
  intro c hc
  have hhead := List.head?_dropWhile_not Char.isDigit cs
  rw [show cs.dropWhile Char.isDigit = (splitDigits cs).2 from rfl, Option.mem_def.mp hc] at hhead
  simpa using hhead

section
variable {s : String} {place : Nat} {cs : List Char}

theorem digitsFrom?_eq (h : Stands s place cs) :
    digitsFrom? s place = some (place + (leadingSign cs).length,
      place + (leadingSign cs).length + (splitDigits (splitSign cs).2).1.length) := by
  have hbehind : Stands s (place + (leadingSign cs).length) (splitSign cs).2 := by
    refine Stands.skip ?_ toNat_of_mem_leadingSign
    rwa [leadingSign_append]
  simp only [digitsFrom?, h.bytesFrom?_eq, signLength_bytesOf, Option.bind_eq_bind, Option.bind_some, hbehind.bytesFrom?_eq,
    digitsLength_bytesOf]
  rfl

/-- An optional sign in front of digits is the leading sign. -/
theorem splitSign_of_digits {sign digits : List Char} (hsign : sign = [] ∨ sign = ['+'] ∨ sign = ['-']) (hdigits : Digits digits)
    (hpresent : digits ≠ []) (rest : List Char) :
    splitSign (sign ++ (digits ++ rest)) = (decide (sign = ['-']), digits ++ rest) ∧
      leadingSign (sign ++ (digits ++ rest)) = sign := by
  have hspelled : Json.SignSpelled (decide (sign = ['-'])) sign := by
    rcases hsign with rfl | rfl | rfl
    · exact .bare
    · exact .plus
    · exact .minus
  have hsplit := Json.splitSign_spelled hspelled hdigits hpresent rest
  have happend := leadingSign_append (sign ++ (digits ++ rest))
  rw [hsplit] at happend
  exact ⟨hsplit, List.append_cancel_right happend⟩

/-- The sign and the digits at the start of characters, if there are digits. -/
def leadingInt (cs : List Char) : List Char :=
  let digits := (splitDigits (splitSign cs).2).1
  if digits = [] then [] else leadingSign cs ++ digits

theorem leadingInt_of_ne (h : (splitDigits (splitSign cs).2).1 ≠ []) :
    leadingInt cs = leadingSign cs ++ (splitDigits (splitSign cs).2).1 :=
  if_neg h

theorem toNat_of_mem_leadingInt : ∀ c ∈ leadingInt cs, c.toNat < 128 := by
  unfold leadingInt
  dsimp only
  split
  · simp
  · intro c hc
    rcases List.mem_append.mp hc with hsign | hdigits
    · exact toNat_of_mem_leadingSign c hsign
    · exact (digits_splitDigits _).toNat_lt c hdigits

theorem leadingInt_prefix (cs : List Char) : leadingInt cs <+: cs := by
  unfold leadingInt
  dsimp only
  split
  · exact List.nil_prefix
  · refine ⟨(splitDigits (splitSign cs).2).2, ?_⟩
    rw [List.append_assoc, ← (Json.splitDigits_sound (splitSign cs).2).2, leadingSign_append]

/-- The digits behind a place end where the integer there ends, or where they begin if there is no integer. -/
theorem digitsFrom?_cases (h : Stands s place cs) :
    (leadingInt cs = [] ∧ ∃ first, digitsFrom? s place = some (first, first)) ∨
      (leadingInt cs ≠ [] ∧ ∃ first, first ≠ place + (leadingInt cs).length ∧
        digitsFrom? s place = some (first, place + (leadingInt cs).length)) := by
  rw [digitsFrom?_eq h]
  unfold leadingInt
  dsimp only
  cases (splitDigits (splitSign cs).2).1 with
  | nil => exact Or.inl ⟨if_pos rfl, _, rfl⟩
  | cons c digits =>
    rw [if_neg (List.cons_ne_nil c digits), List.length_append, ← Nat.add_assoc]
    exact Or.inr ⟨by simp, _, by simp, rfl⟩

theorem intEnd?_eq (s : String) : intEnd? s = some (leadingInt s.toList).length := by
  unfold intEnd?
  rcases digitsFrom?_cases (Stands.start s) with ⟨hnone, first, hdigits⟩ | ⟨-, first, hne, hdigits⟩
  · simp [hdigits, hnone]
  · rw [Nat.zero_add] at hne hdigits
    simp [hdigits, hne]

end

end Bytecode.Text
