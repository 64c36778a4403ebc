import Bytecode.Proofs.Machine.Operands
import Bytecode.Proofs.Text.Places
import Mathlib.Computability.Language

/-! The longest numeral at the start of a text. The spellings of numerals are a language made of parts: a sign, digits, a
    fraction and an exponent. Each part is told from the next one by its first character, so that taking the parts one after
    the other as far as they go (`Takes`) takes the longest numeral, and an exponent without digits is given up without
    a second look at what stands before it. -/

namespace Bytecode.Text
open Json (NoDigit)
open scoped Computability

/-! ### The language of numerals -/

def signs : Language Char :=
  {['+'], ['-']}

def digit : Language Char :=
  {cs | ∃ c : Char, c.isDigit = true ∧ cs = [c]}

def points : Language Char :=
  {['.']}

def marks : Language Char :=
  {['e'], ['E']}

/-- A sign or none, and digits. -/
def integers : Language Char :=
  (1 + signs) * (digit * digit∗)

/-- A point with any number of digits, or nothing. -/
def fractions : Language Char :=
  1 + points * digit∗

/-- A mark with an integer, or nothing. -/
def exponents : Language Char :=
  1 + marks * integers

def numerals : Language Char :=
  integers * (fractions * exponents)

section
variable {cs : List Char}

theorem mem_kstar_digit : cs ∈ digit∗ ↔ Digits cs := by
  rw [Language.mem_kstar]
  constructor
  · rintro ⟨parts, rfl, hparts⟩ c hc
    obtain ⟨part, hpart, hmem⟩ := List.mem_flatten.mp hc
    obtain ⟨d, hd, rfl⟩ := hparts part hpart
    rwa [List.mem_singleton.mp hmem]
  · intro hcs
    refine ⟨cs.map fun c => [c], by rw [← List.flatMap_def, List.flatMap_singleton'], fun part hpart => ?_⟩
    obtain ⟨c, hc, rfl⟩ := List.mem_map.mp hpart
    exact ⟨c, hcs c hc, rfl⟩

theorem mem_digits : cs ∈ digit * digit∗ ↔ Digits cs ∧ cs ≠ [] := by
  rw [Language.mem_mul]
  constructor
  · rintro ⟨_, ⟨c, hc, rfl⟩, rest, hrest, rfl⟩
    exact ⟨List.forall_mem_cons.mpr ⟨hc, mem_kstar_digit.mp hrest⟩, List.cons_ne_nil _ _⟩
  · rintro ⟨hcs, hne⟩
    obtain ⟨c, rest, rfl⟩ := List.exists_cons_of_ne_nil hne
    obtain ⟨hc, hrest⟩ := List.forall_mem_cons.mp hcs
    exact ⟨[c], ⟨c, hc, rfl⟩, rest, mem_kstar_digit.mpr hrest, rfl⟩

theorem mem_integers :
    cs ∈ integers ↔ ∃ sign digits, (sign = [] ∨ sign = ['+'] ∨ sign = ['-']) ∧ Digits digits ∧ digits ≠ [] ∧
      cs = sign ++ digits := by
  rw [integers, Language.mem_mul]
  constructor
  · rintro ⟨sign, hsign, digits, hdigits, rfl⟩
    obtain ⟨hdigits, hne⟩ := mem_digits.mp hdigits
    exact ⟨sign, digits, hsign, hdigits, hne, rfl⟩
  · rintro ⟨sign, digits, hsign, hdigits, hne, rfl⟩
    exact ⟨sign, hsign, digits, mem_digits.mpr ⟨hdigits, hne⟩, rfl⟩

theorem mem_fractions : cs ∈ fractions ↔ cs = [] ∨ ∃ digits, Digits digits ∧ cs = '.' :: digits := by
  rw [fractions, Language.mem_add, Language.mem_one, Language.mem_mul]
  refine or_congr_right ⟨?_, ?_⟩
  · rintro ⟨_, rfl, digits, hdigits, rfl⟩
    exact ⟨digits, mem_kstar_digit.mp hdigits, rfl⟩
  · rintro ⟨digits, hdigits, rfl⟩
    exact ⟨['.'], rfl, digits, mem_kstar_digit.mpr hdigits, rfl⟩

theorem mem_exponents :
    cs ∈ exponents ↔ cs = [] ∨ ∃ mark number, (mark = 'e' ∨ mark = 'E') ∧ number ∈ integers ∧ cs = mark :: number := by
  rw [exponents, Language.mem_add, Language.mem_one, Language.mem_mul]
  refine or_congr_right ⟨?_, ?_⟩
  · rintro ⟨_, rfl | rfl, number, hnumber, rfl⟩
    · exact ⟨'e', number, Or.inl rfl, hnumber, rfl⟩
    · exact ⟨'E', number, Or.inr rfl, hnumber, rfl⟩
  · rintro ⟨mark, number, rfl | rfl, hnumber, rfl⟩
    · exact ⟨['e'], Or.inl rfl, number, hnumber, rfl⟩
    · exact ⟨['E'], Or.inr rfl, number, hnumber, rfl⟩

end

/-! ### Taking parts as far as they go -/

/-- A part is taken from the start of characters as far as it goes: another text of its language that stands there, followed
by one of a second language, is the same, or nothing follows it and it is not longer. -/
structure Takes (L M : Language Char) (cs front rest : List Char) : Prop where
  parts : front ++ rest = cs
  mem : front ∈ L
  greedy : ∀ q ∈ L, ∀ m ∈ M, q ++ m <+: cs → (q = front ∧ m <+: rest) ∨ (m = [] ∧ q.length ≤ front.length)

namespace Takes
variable {L M N : Language Char} {cs front front' rest rest' : List Char}

theorem mul (h : Takes L (M * N) cs front rest) (h' : Takes M N rest front' rest') :
    Takes (L * M) N cs (front ++ front') rest' where
  parts := by rw [List.append_assoc, h'.parts, h.parts]
  mem := Language.append_mem_mul h.mem h'.mem
  greedy := by
    intro q hq n hn hleads
    obtain ⟨l, hl, m, hm, rfl⟩ := Language.mem_mul.mp hq
    rw [List.append_assoc] at hleads
    rcases h.greedy l hl (m ++ n) (Language.append_mem_mul hm hn) hleads with ⟨rfl, hbehind⟩ | ⟨hnil, hle⟩
    · rcases h'.greedy m hm n hn hbehind with ⟨rfl, hrest⟩ | ⟨hnil, hle⟩
      · exact Or.inl ⟨rfl, hrest⟩
      · exact Or.inr ⟨hnil, by simpa using hle⟩
    · -- Where the first part stops short, no second part is left, and what is taken of it only adds to the length.
      obtain ⟨rfl, rfl⟩ := List.append_eq_nil_iff.mp hnil
      exact Or.inr ⟨rfl, by simpa using hle.trans (Nat.le_add_right _ _)⟩

/-- Where nothing is to follow, what is taken is the longest text of the language. -/
theorem longest (h : Takes L 1 cs front rest) {q : List Char} (hq : q ∈ L) (hleads : q <+: cs) :
    q.length ≤ front.length := by
  rcases h.greedy q hq [] rfl (by rwa [List.append_nil]) with ⟨rfl, -⟩ | ⟨-, hle⟩
  · exact Nat.le_refl _
  · exact hle

end Takes

/-! ### Integers, fractions and exponents -/

section
variable {M : Language Char} {cs q m : List Char}

/-- Digits that stand at the start are all of the leading digits, or nothing follows them. -/
theorem digits_greedy (hq : Digits q) (hm : NoDigit m) (hleads : q ++ m <+: cs) :
    (q = (splitDigits cs).1 ∧ m <+: (splitDigits cs).2) ∨ (m = [] ∧ q.length ≤ (splitDigits cs).1.length) := by
  obtain ⟨t, rfl⟩ := hleads
  cases m with
  | nil =>
    refine Or.inr ⟨rfl, ?_⟩
    rw [List.append_nil]
    show _ ≤ ((q ++ t).takeWhile Char.isDigit).length
    rw [List.takeWhile_append_of_pos hq, List.length_append]
    exact Nat.le_add_right _ _
  | cons c m =>
    rw [List.append_assoc, Json.splitDigits_complete hq (show NoDigit (c :: m ++ t) from hm)]
    exact Or.inl ⟨rfl, List.prefix_append _ _⟩

theorem sign_greedy {sign digits : List Char} (hsign : sign = [] ∨ sign = ['+'] ∨ sign = ['-']) (hdigits : Digits digits)
    (hpresent : digits ≠ []) (hleads : sign ++ digits ++ m <+: cs) :
    leadingSign cs = sign ∧ digits ++ m <+: (splitSign cs).2 := by
  obtain ⟨t, rfl⟩ := hleads
  have hassoc : sign ++ digits ++ m ++ t = sign ++ (digits ++ (m ++ t)) := by simp
  obtain ⟨hsplit, hleading⟩ := splitSign_of_digits hsign hdigits hpresent (m ++ t)
  rw [hassoc, hsplit]
  exact ⟨hleading, t, List.append_assoc _ _ _⟩

/-- The leading integer is taken as far as it goes in front of whatever does not start with a digit. -/
theorem takes_integers (hM : ∀ m ∈ M, NoDigit m) (hne : leadingInt cs ≠ []) :
    Takes integers M cs (leadingInt cs) (splitDigits (splitSign cs).2).2 := by
  have hpresent : (splitDigits (splitSign cs).2).1 ≠ [] := fun hnil => hne (if_pos hnil)
  rw [leadingInt_of_ne hpresent]
  refine ⟨?_, ?_, fun q hq m hm hleads => ?_⟩
  · rw [List.append_assoc, ← (Json.splitDigits_sound _).2, leadingSign_append]
  · exact mem_integers.mpr ⟨_, _, leadingSign_cases cs, digits_splitDigits _, hpresent, rfl⟩
  · obtain ⟨sign, digits, hsign, hdigits, hsome, rfl⟩ := mem_integers.mp hq
    obtain ⟨rfl, hbehind⟩ := sign_greedy hsign hdigits hsome hleads
    rcases digits_greedy hdigits (hM m hm) hbehind with ⟨rfl, hrest⟩ | ⟨hnil, hle⟩
    · exact Or.inl ⟨rfl, hrest⟩
    · exact Or.inr ⟨hnil, by simpa using hle⟩

/-- Without a leading integer no integer stands at the start. -/
theorem leadingInt_ne_nil (hq : q ∈ integers) (hleads : q <+: cs) : leadingInt cs ≠ [] := by
  obtain ⟨sign, digits, hsign, hdigits, hsome, rfl⟩ := mem_integers.mp hq
  rw [← List.append_nil (sign ++ digits)] at hleads
  obtain ⟨-, hbehind⟩ := sign_greedy hsign hdigits hsome hleads
  have hpresent : (splitDigits (splitSign cs).2).1 ≠ [] := by
    intro hnil
    rcases digits_greedy hdigits (by simp [NoDigit]) hbehind with ⟨rfl, -⟩ | ⟨-, hle⟩
    · exact hsome hnil
    · rw [hnil] at hle
      exact hsome (List.length_eq_zero_iff.mp (Nat.le_zero.mp hle))
  rw [leadingInt_of_ne hpresent]
  exact fun hnil => hpresent (List.append_eq_nil_iff.mp hnil).2

/-- The point and the digits behind it at the start of characters. -/
def splitPoint : List Char → List Char × List Char
  | '.' :: after => ('.' :: (splitDigits after).1, (splitDigits after).2)
  | cs => ([], cs)

theorem takes_fractions (hM : ∀ m ∈ M, NoDigit m ∧ m.head? ≠ some '.') :
    Takes fractions M cs (splitPoint cs).1 (splitPoint cs).2 := by
  unfold splitPoint
  split
  · rename_i after
    refine ⟨?_, mem_fractions.mpr (Or.inr ⟨_, digits_splitDigits _, rfl⟩), fun q hq m hm hleads => ?_⟩
    · rw [List.cons_append, ← (Json.splitDigits_sound after).2]
    · rcases mem_fractions.mp hq with rfl | ⟨digits, hdigits, rfl⟩
      · -- Where the point is not taken, nothing that may follow starts with it.
        refine Or.inr ⟨?_, Nat.zero_le _⟩
        cases m with
        | nil => rfl
        | cons c m =>
          obtain ⟨t, ht⟩ := hleads
          cases ht
          exact absurd rfl (hM _ hm).2
      · rw [List.cons_append, List.cons_prefix_cons] at hleads
        rcases digits_greedy hdigits (hM m hm).1 hleads.2 with ⟨rfl, hrest⟩ | ⟨hnil, hle⟩
        · exact Or.inl ⟨rfl, hrest⟩
        · exact Or.inr ⟨hnil, Nat.succ_le_succ hle⟩
  · rename_i hpoint
    refine ⟨rfl, mem_fractions.mpr (Or.inl rfl), fun q hq m hm hleads => ?_⟩
    rcases mem_fractions.mp hq with rfl | ⟨digits, hdigits, rfl⟩
    · exact Or.inl ⟨rfl, hleads⟩
    · obtain ⟨t, ht⟩ := hleads
      exact absurd ht.symm (hpoint _)

/-- The mark and the integer behind it at the start of characters, if there is an integer. -/
def splitMark : List Char → List Char × List Char
  | [] => ([], [])
  | c :: after =>
    if (c = 'e' ∨ c = 'E') ∧ leadingInt after ≠ [] then (c :: leadingInt after, (splitDigits (splitSign after).2).2)
    else ([], c :: after)

theorem takes_exponents : Takes exponents 1 cs (splitMark cs).1 (splitMark cs).2 := by
  unfold splitMark
  split
  · refine ⟨rfl, mem_exponents.mpr (Or.inl rfl), fun q _ m hm hleads => Or.inl ?_⟩
    obtain ⟨rfl, rfl⟩ := List.append_eq_nil_iff.mp (List.prefix_nil.mp hleads)
    exact ⟨rfl, List.nil_prefix⟩
  · rename_i c after
    split
    · rename_i hmark
      -- A mark counts only with digits behind it; otherwise the numeral ends before it.
      have htakes := takes_integers (M := 1) (by simp [NoDigit]) hmark.2
      refine ⟨?_, mem_exponents.mpr (Or.inr ⟨c, _, hmark.1, htakes.mem, rfl⟩), fun q hq m hm hleads => Or.inr ⟨hm, ?_⟩⟩
      · rw [List.cons_append, htakes.parts]
      · rcases mem_exponents.mp hq with rfl | ⟨mark, number, -, hnumber, rfl⟩
        · exact Nat.zero_le _
        · obtain rfl : m = [] := hm
          rw [List.append_nil, List.cons_prefix_cons] at hleads
          exact Nat.succ_le_succ (htakes.longest hnumber hleads.2)
    · rename_i hnone
      refine ⟨rfl, mem_exponents.mpr (Or.inl rfl), fun q hq m hm hleads => ?_⟩
      rcases mem_exponents.mp hq with rfl | ⟨mark, number, hmark, hnumber, rfl⟩
      · exact Or.inl ⟨rfl, hleads⟩
      · obtain rfl : m = [] := hm
        rw [List.append_nil, List.cons_prefix_cons] at hleads
        obtain ⟨rfl, hleads⟩ := hleads
        exact absurd ⟨hmark, leadingInt_ne_nil hnumber hleads⟩ hnone

theorem head_of_mem_exponents (hm : m ∈ exponents) : NoDigit m ∧ m.head? ≠ some '.' := by
  rcases mem_exponents.mp hm with rfl | ⟨mark, number, rfl | rfl, -, rfl⟩ <;> simp [NoDigit, Char.isDigit]

theorem noDigit_of_mem (hm : m ∈ fractions * exponents) : NoDigit m := by
  obtain ⟨fraction, hfraction, exponent, hexponent, rfl⟩ := Language.mem_mul.mp hm
  rcases mem_fractions.mp hfraction with rfl | ⟨digits, -, rfl⟩
  · exact (head_of_mem_exponents hexponent).1
  · simp [NoDigit, Char.isDigit]

/-! ### Bytes of the parts -/

theorem toNat_of_mem_integers (hq : q ∈ integers) : ∀ c ∈ q, c.toNat < 128 := by
  obtain ⟨sign, digits, hsign, hdigits, -, rfl⟩ := mem_integers.mp hq
  refine List.forall_mem_append.mpr ⟨?_, hdigits.toNat_lt⟩
  rcases hsign with rfl | rfl | rfl <;> simp

theorem toNat_of_mem_fractions (hq : q ∈ fractions) : ∀ c ∈ q, c.toNat < 128 := by
  rcases mem_fractions.mp hq with rfl | ⟨digits, hdigits, rfl⟩
  · simp
  · exact List.forall_mem_cons.mpr ⟨by decide, hdigits.toNat_lt⟩

theorem toNat_of_mem_exponents (hq : q ∈ exponents) : ∀ c ∈ q, c.toNat < 128 := by
  rcases mem_exponents.mp hq with rfl | ⟨mark, number, hmark, hnumber, rfl⟩
  · simp
  · refine List.forall_mem_cons.mpr ⟨?_, toNat_of_mem_integers hnumber⟩
    rcases hmark with rfl | rfl <;> decide

variable {s : String} {place : Nat}

theorem fractionEnd?_eq (h : Stands s place cs) : fractionEnd? s place = some (place + (splitPoint cs).1.length) := by
  simp only [fractionEnd?, h.bytesFrom?_eq, Option.bind_eq_bind, Option.bind_some, head?_bytesOf (by decide : '.'.toNat < 128)]
  by_cases hpoint : cs.head? = some '.'
  · obtain ⟨after, rfl⟩ := List.head?_eq_some_iff.mp hpoint
    have hbehind : Stands s (place + 1) after := Stands.skip (show Stands s place (['.'] ++ after) from h) (by simp)
    simp only [if_pos hpoint, hbehind.bytesFrom?_eq, digitsLength_bytesOf, splitPoint, List.length_cons, Option.bind_some]
    rw [Nat.add_right_comm, Nat.add_assoc]
    rfl
  · have hnone : ∀ after, cs ≠ '.' :: after := fun after heq => hpoint (heq ▸ rfl)
    rw [if_neg hpoint, splitPoint.eq_2 cs hnone]
    rfl

theorem exponentEnd?_eq (h : Stands s place cs) : exponentEnd? s place = some (place + (splitMark cs).1.length) := by
  simp only [exponentEnd?, h.bytesFrom?_eq, Option.bind_eq_bind, Option.bind_some, head?_bytesOf (by decide : 'e'.toNat < 128),
    head?_bytesOf (by decide : 'E'.toNat < 128)]
  cases cs with
  | nil => rfl
  | cons c after =>
    simp only [List.head?_cons, Option.some.injEq]
    by_cases hmark : c = 'e' ∨ c = 'E'
    · have hbehind : Stands s (place + 1) after :=
        Stands.skip (show Stands s place ([c] ++ after) from h) (by rcases hmark with rfl | rfl <;> simp)
      rcases digitsFrom?_cases hbehind with ⟨hnone, first, hdigits⟩ | ⟨hsome, first, hne, hdigits⟩
      · simp [splitMark, hmark, hdigits, hnone]
      · simp only [if_pos hmark, hdigits, Option.bind_some, if_neg hne, splitMark, if_pos (And.intro hmark hsome),
          List.length_cons]
        rw [Nat.add_right_comm, Nat.add_assoc]
        rfl
    · simp [splitMark, hmark]

end

/-! ### Numerals -/

/-- A text of a language stands at the start of characters, and no longer one does. -/
structure LongestPrefix (L : Language Char) (cs p : List Char) : Prop where
  isPrefix : p <+: cs
  mem : p ∈ L
  longest : ∀ q, q <+: cs → q ∈ L → q.length ≤ p.length

theorem Takes.longestPrefix {L : Language Char} {cs front rest : List Char} (h : Takes L 1 cs front rest) :
    LongestPrefix L cs front :=
  ⟨⟨rest, h.parts⟩, h.mem, fun _ hleads hq => h.longest hq hleads⟩

/-- A scan finds the end of the longest numeral at the start of a text, or stays at the start if there is none. -/
theorem numeralEnd?_cases (s : String) :
    (numeralEnd? s = some 0 ∧ ∀ q, q <+: s.toList → q ∉ numerals) ∨
      ∃ front rest, numeralEnd? s = some front.length ∧ Takes numerals 1 s.toList front rest ∧
        ∀ c ∈ front, c.toNat < 128 := by
  by_cases hnone : leadingInt s.toList = []
  · refine Or.inl ⟨by simp [numeralEnd?, intEnd?_eq, hnone], fun q hleads hq => ?_⟩
    obtain ⟨number, hnumber, behind, -, rfl⟩ := Language.mem_mul.mp hq
    exact leadingInt_ne_nil hnumber ((List.prefix_append _ _).trans hleads) hnone
  · -- Each part is taken from what the parts before it leave, and starts at the place behind their bytes.
    have hwhole : Takes integers (fractions * exponents * 1) s.toList _ _ :=
      takes_integers (fun m hm => noDigit_of_mem (by rwa [mul_one] at hm)) hnone
    have hfraction : Takes fractions (exponents * 1) (splitDigits (splitSign s.toList).2).2 _ _ :=
      takes_fractions fun m hm => head_of_mem_exponents (by rwa [mul_one] at hm)
    have hexponent : Takes exponents 1 (splitPoint (splitDigits (splitSign s.toList).2).2).2 _ _ := takes_exponents
    have hwhole_ascii := toNat_of_mem_integers hwhole.mem
    have hfraction_ascii := toNat_of_mem_fractions hfraction.mem
    have hpoint : Stands s (leadingInt s.toList).length (splitDigits (splitSign s.toList).2).2 := by
      rw [← Nat.zero_add (List.length _)]
      refine Stands.skip ?_ hwhole_ascii
      rw [hwhole.parts]
      exact Stands.start s
    have hmark : Stands s _ (splitPoint (splitDigits (splitSign s.toList).2).2).2 :=
      Stands.skip (by rwa [hfraction.parts]) hfraction_ascii
    refine Or.inr ⟨_, _, ?_, hwhole.mul (hfraction.mul hexponent), ?_⟩
    · have hlength : (leadingInt s.toList).length ≠ 0 := by simpa using hnone
      simp only [numeralEnd?, intEnd?_eq, Option.bind_eq_bind, Option.bind_some, if_neg hlength, fractionEnd?_eq hpoint,
        exponentEnd?_eq hmark, List.length_append, Nat.add_assoc]
    · refine List.forall_mem_append.mpr ⟨hwhole_ascii, List.forall_mem_append.mpr ⟨hfraction_ascii, ?_⟩⟩
      exact toNat_of_mem_exponents hexponent.mem

/-! ### Conversion -/

/-- A fraction is split off in front of an exponent. -/
theorem splitPoint_of_mem {fraction exponent : List Char} (hfraction : fraction ∈ fractions) (hexponent : exponent ∈ exponents) :
    (splitPoint (fraction ++ exponent)).2 = exponent := by
  obtain ⟨hdigit, hpoint⟩ := head_of_mem_exponents hexponent
  rcases mem_fractions.mp hfraction with rfl | ⟨digits, hdigits, rfl⟩
  · rw [List.nil_append, splitPoint.eq_2 exponent fun after heq => hpoint (heq ▸ rfl)]
  · rw [List.cons_append, splitPoint, Json.splitDigits_complete hdigits hdigit]

/-- An exponent is read to its end. -/
theorem splitExponent_of_mem {exponent : List Char} (h : exponent ∈ exponents) : (splitExponent exponent).2 = [] := by
  rcases mem_exponents.mp h with rfl | ⟨mark, number, hmark, hnumber, rfl⟩
  · rfl
  · obtain ⟨sign, digits, hsign, hdigits, hpresent, rfl⟩ := mem_integers.mp hnumber
    have hsplit := (splitSign_of_digits hsign hdigits hpresent []).1
    have hall := Json.splitDigits_complete hdigits (show NoDigit [] by simp [NoDigit])
    rw [List.append_nil] at hsplit hall
    simp [splitExponent, hmark, hsplit, hall, hpresent]

/-- What is split off in parts to its end is a numeral. -/
theorem exists_numeralOf? {cs : List Char} (hwhole : (splitDigits (splitSign cs).2).1 ≠ [])
    (hend : (splitExponent (splitPoint (splitDigits (splitSign cs).2).2).2).2 = []) : ∃ n, numeralOf? cs = some n := by
  unfold numeralOf?
  unfold splitPoint at hend
  dsimp only
  -- Both sides look at the same first character for the point.
  split at hend <;> simp_all

/-- Every numeral can be converted. -/
theorem exists_doubleOf? {p : List Char} (hp : p ∈ numerals) : ∃ x, doubleOf? p = some x := by
  obtain ⟨number, hnumber, behind, hbehind, rfl⟩ := Language.mem_mul.mp hp
  obtain ⟨sign, digits, hsign, hdigits, hpresent, rfl⟩ := mem_integers.mp hnumber
  obtain ⟨fraction, hfraction, exponent, hexponent, rfl⟩ := Language.mem_mul.mp hbehind
  have hsplit := (splitSign_of_digits hsign hdigits hpresent (fraction ++ exponent)).1
  have hwhole := Json.splitDigits_complete hdigits (noDigit_of_mem hbehind)
  have hend := splitExponent_of_mem hexponent
  obtain ⟨n, hn⟩ : ∃ n, numeralOf? (sign ++ digits ++ (fraction ++ exponent)) = some n := by
    rw [List.append_assoc]
    refine exists_numeralOf? ?_ ?_
    · rwa [hsplit, hwhole]
    · rwa [hsplit, hwhole, splitPoint_of_mem hfraction hexponent]
  exact ⟨_, by rw [doubleOf?, hn, Option.map_some]⟩

theorem toDouble_apply (heap : Heap) (stack : Operands) (s : String) :
    Operation.toDouble.apply heap (.str s :: stack) =
      (doubleAtStart? s).elim (.error .notADouble) fun x => .ok (.double x :: stack, none) := by
  cases hdouble : doubleAtStart? s <;>
    simp [Operation.apply, Value.needPresent, Value.toDouble, hdouble, bind, Except.bind, pure, Except.pure]

section
variable {s : String}

theorem doubleAtStart?_eq_none (hnone : numeralEnd? s = some 0) : doubleAtStart? s = none := by
  have hbefore : beforeEnd? s 0 = none := rfl
  simp [doubleAtStart?, hnone, hbefore]

theorem doubleAtStart?_eq {front rest : List Char} (hend : numeralEnd? s = some front.length) (hs : s.toList = front ++ rest)
    (hne : front ≠ []) (hascii : ∀ c ∈ front, c.toNat < 128) : doubleAtStart? s = doubleOf? front := by
  simp only [doubleAtStart?, hend, Option.bind_eq_bind, Option.bind_some, beforeEnd?_length hs hascii, if_neg hne]

end

theorem numeral_ne_nil {p : List Char} (hp : p ∈ numerals) : p ≠ [] := by
  obtain ⟨number, hnumber, behind, -, rfl⟩ := Language.mem_mul.mp hp
  obtain ⟨sign, digits, -, -, hpresent, rfl⟩ := mem_integers.mp hnumber
  simp [hpresent]

/-- A text is refused exactly if no numeral stands at its start; otherwise the longest one is cut off and converted. The scan
looks at the text only within it and between its characters, and cuts it there. -/
theorem text_to_double_reads_longest_numeral (heap : Heap) (stack : Operands) (s : String) :
    ((∃ fault, Operation.toDouble.apply heap (.str s :: stack) = .error fault ∧ fault.kind = .conversion) ↔
        ∀ p, p <+: s.toList → p ∉ numerals) ∧
      (∀ p, p <+: s.toList → p ∈ numerals → ∃ place number rest x,
        numeralEnd? s = some place ∧ splitAt? s place = some (number, rest) ∧ LongestPrefix numerals s.toList number.toList ∧
          doubleOf? number.toList = some x ∧ Operation.toDouble.apply heap (.str s :: stack) = .ok (.double x :: stack, none)) ∧
      (∀ place, (bytesFrom? s place).isSome = true ↔ String.Pos.Raw.IsValid s ⟨place⟩) ∧
      ∃ place, numeralEnd? s = some place ∧ place ≤ s.utf8ByteSize ∧ String.Pos.Raw.IsValid s ⟨place⟩ := by
  rcases numeralEnd?_cases s with ⟨hend, hnone⟩ | ⟨front, rest, hend, htakes, hascii⟩
  · refine ⟨⟨fun _ => hnone, fun _ => ⟨.notADouble, ?_, rfl⟩⟩, fun p hleads hp => absurd hp (hnone p hleads),
      fun place => bytesFrom?_isSome_iff, 0, hend, Nat.zero_le _, String.Pos.Raw.isValid_zero⟩
    rw [toDouble_apply, doubleAtStart?_eq_none hend]
    rfl
  · obtain ⟨x, hx⟩ := exists_doubleOf? htakes.mem
    have hsplit := splitAt?_length htakes.parts.symm hascii
    have hvalid := splitAt?_isSome_iff.mp (Option.isSome_of_eq_some hsplit)
    have hok : Operation.toDouble.apply heap (.str s :: stack) = .ok (.double x :: stack, none) := by
      rw [toDouble_apply, doubleAtStart?_eq hend htakes.parts.symm (numeral_ne_nil htakes.mem) hascii, hx]
      rfl
    refine ⟨⟨?_, fun hnone => absurd htakes.mem (hnone front ⟨rest, htakes.parts⟩)⟩, fun _ _ _ => ?_,
      fun place => bytesFrom?_isSome_iff, _, hend, hvalid.le_rawEndPos, hvalid⟩
    · rintro ⟨fault, hfault, -⟩
      rw [hok] at hfault
      cases hfault
    · refine ⟨_, _, _, x, hend, hsplit, ?_, ?_, hok⟩
      · rw [String.toList_ofList]
        exact htakes.longestPrefix
      · rwa [String.toList_ofList]

/-- Where an exponent ends behind its sign, the numeral in front of it is converted. -/
theorem numeral_before_broken_exponent :
    "-2.5".toList <+: "-2.5e+é".toList ∧ "-2.5".toList ∈ numerals ∧ ∃ place number rest x,
      numeralEnd? "-2.5e+é" = some place ∧ splitAt? "-2.5e+é" place = some (number, rest) ∧
        LongestPrefix numerals "-2.5e+é".toList number.toList ∧ doubleOf? number.toList = some x ∧
        Operation.toDouble.apply {} [.str "-2.5e+é"] = .ok ([.double x], none) := by
  have hleads : "-2.5".toList <+: "-2.5e+é".toList := ⟨"e+é".toList, by simp⟩
  have hwhole : ['-', '2'] ∈ integers := mem_integers.mpr ⟨['-'], ['2'], by simp, by simp [Digits, Char.isDigit], by simp, rfl⟩
  have hfraction : ['.', '5'] ∈ fractions := mem_fractions.mpr (Or.inr ⟨['5'], by simp [Digits, Char.isDigit], rfl⟩)
  have hmem : "-2.5".toList ∈ numerals := by
    simpa [numerals] using Language.append_mem_mul hwhole (Language.append_mem_mul hfraction (mem_exponents.mpr (Or.inl rfl)))
  exact ⟨hleads, hmem, (text_to_double_reads_longest_numeral {} [] "-2.5e+é").2.1 _ hleads hmem⟩

end Bytecode.Text
