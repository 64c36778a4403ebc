import Bytecode.Proofs.Double.Layout
import Bytecode.Proofs.Machine.Course
import Mathlib.Data.List.Forall2

/-! What the lines of the diagnostics show. A line of a trace shows the name of the function, the index and the text of the
    instruction, the top operand before it and the number of frames; a line of a profile shows a mnemonic and its count. The
    texts of operands are described by what can be told from them, character by character and digit by digit, and the notes
    of the diagnostics are shown to be such lines (`Execution.traced_note`). -/

namespace Bytecode

namespace Text

/-- The characters that are shown by a backslash and a letter. -/
def quotedPairs : List (Char × Char) :=
  [('"', '"'), ('\\', '\\'), ('\n', 'n'), ('\r', 'r'), ('\t', 't'), ('\x00', '0')]

/-- How a character is shown between quotes: by a backslash and a letter, by its code point in hexadecimal digits if nothing
would be seen of it, and otherwise by itself. -/
inductive ShowsChar : Char → List Char → Prop where
  | pair {c letter : Char} (h : (c, letter) ∈ quotedPairs) : ShowsChar c ['\\', letter]
  | code {c : Char} (hpair : c ∉ quotedPairs.map Prod.fst) (hidden : isHidden c = true) :
      ShowsChar c ("\\u\x7b".toList ++ Nat.toDigits 16 c.toNat ++ ['\x7d'])
  | plain {c : Char} (hpair : c ∉ quotedPairs.map Prod.fst) (seen : isHidden c = false) : ShowsChar c [c]

theorem quoteLetter?_of_mem : ∀ pair ∈ quotedPairs, quoteLetter? pair.1 = some pair.2 := by
  decide

theorem mem_of_quoteLetter? {c letter : Char} (h : quoteLetter? c = some letter) : (c, letter) ∈ quotedPairs := by
  unfold quoteLetter? at h
  split at h <;> cases h <;> decide

theorem showsChar_quoteChar (c : Char) : ShowsChar c (quoteChar c) := by
  unfold quoteChar
  cases hletter : quoteLetter? c with
  | some letter => exact .pair (mem_of_quoteLetter? hletter)
  | none =>
    have hpair : c ∉ quotedPairs.map Prod.fst := by
      rw [List.mem_map]
      rintro ⟨pair, hmem, rfl⟩
      rw [quoteLetter?_of_mem pair hmem] at hletter
      cases hletter
    dsimp only
    by_cases hhidden : isHidden c = true
    · rw [if_pos hhidden]
      exact .code hpair hhidden
    · rw [if_neg hhidden]
      exact .plain hpair (Bool.not_eq_true _ ▸ hhidden)

end Text

namespace Double
open Text

/-- The text of a double: a name for what is no number, and otherwise its digits around a point, which stand for a number
that rounds to the double. -/
inductive Shows (x : Float) : String → Prop where
  | nan (h : parts x = .nan) : Shows x "NaN"
  | infinite (h : parts x = .infinite false) : Shows x "inf"
  | negative (h : parts x = .infinite true) : Shows x "-inf"
  | finite {negative : Bool} {m : Nat} {e : Int} {whole fraction : List Char} (h : parts x = .finite negative m e)
      (whole_digits : Digits whole) (present : whole ≠ []) (fraction_digits : Digits fraction)
      (number : let q : Rat := (Nat.ofDigitChars 10 (whole ++ fraction) 0 : Rat) * 10 ^ (-(fraction.length : Int))
        m = 0 ∧ q = 0 ∨ Rounds m e q) :
      Shows x ((if negative then "-" else "") ++ String.ofList whole ++
        if fraction = [] then "" else "." ++ String.ofList fraction)

theorem shows_text (x : Float) : Shows x (text "" x) := by
  unfold text
  cases hparts : parts x with
  | nan => exact .nan hparts
  | infinite negative =>
    cases negative with
    | false => exact .infinite hparts
    | true => exact .negative hparts
  | finite negative m e =>
    have hdigits := digits_places (shortest .up m e)
    have hpresent := (places_strict _ (digits_shortest .up m e)).1
    have hvalue := places_value (shortest .up m e)
    rw [readDigits_eq] at hvalue
    dsimp only
    simp only [List.isEmpty_iff]
    refine .finite hparts hdigits.1 hpresent hdigits.2 (by
      dsimp only
      rw [hvalue]
      rcases Nat.eq_zero_or_pos m with rfl | hm
      · have hzero : shortest .up 0 e = ⟨0, 0⟩ := rfl
        exact Or.inl ⟨rfl, by rw [hzero, Decimal.value, Nat.cast_zero, zero_mul]⟩
      · exact Or.inr (shortest_rounds hm .up))

end Double

namespace Value

/-- What a trace shows of a value: its kind and, unless it is null, what it is. -/
inductive Shows : Value → String → Prop where
  | int (n : Int64) : Shows (.int n) ("Int(" ++ toString n.toInt ++ ")")
  | double {x : Float} {t : String} (h : Double.Shows x t) : Shows (.double x) ("Double(" ++ t ++ ")")
  | true : Shows (.bool true) "Bool(true)"
  | false : Shows (.bool false) "Bool(false)"
  | str {s : String} {parts : List (List Char)} (h : List.Forall₂ Text.ShowsChar s.toList parts) :
      Shows (.str s) ("Str(" ++ String.ofList ('"' :: parts.flatten ++ ['"']) ++ ")")
  | null : Shows .null "Null"
  | object (id : Int64) : Shows (.object id) ("Object(" ++ toString id.toInt ++ ")")

theorem shows_debugText (v : Value) : v.Shows v.debugText := by
  cases v with
  | int n => exact .int n
  | double x => exact .double (Double.shows_text x)
  | bool b =>
    cases b with
    | true => exact .true
    | false => exact .false
  | str s =>
    have hparts : List.Forall₂ Text.ShowsChar s.toList (s.toList.map Text.quoteChar) := by
      rw [List.forall₂_map_right_iff, List.forall₂_same]
      exact fun c _ => Text.showsChar_quoteChar c
    exact .str hparts
  | null => exact .null
  | object id => exact .object id

end Value

/-- What a trace shows of the top operand, if there is one. -/
def ShowsTop (top : Option Value) (t : String) : Prop :=
  match top with
  | none => t = "-"
  | some v => v.Shows t

namespace Execution

/-- What a trace notes down for an executed instruction. -/
def note : Execution → Note
  | (f, callers, i) => .instruction (f.site i) f.stack.head? (callers.length + 1)

/-- A line of a trace that shows an executed instruction: the name of its function, its index, its text, the top operand
before it and the number of frames. -/
def Traced : Execution → String → Prop
  | (f, callers, i), line => ∃ top, ShowsTop f.stack.head? top ∧
      line = "[trace] " ++ f.function.name ++ ":" ++ toString f.pc ++ " " ++ i.text ++ " top=" ++ top ++ " depth=" ++
        toString (callers.length + 1)

theorem traced_note (x : Execution) : x.Traced x.note.text := by
  obtain ⟨f, callers, i⟩ := x
  refine ⟨(f.stack.head?.map Value.debugText).getD "-", ?_, rfl⟩
  cases f.stack.head? with
  | none => rfl
  | some v => exact v.shows_debugText

end Execution

/-- A line of a profile that shows a mnemonic, filled up with blanks to eight characters, and its count. -/
def Profiled (e : String × Nat) (line : String) : Prop :=
  ∃ blanks, e.1.length + blanks = max e.1.length 8 ∧
    line = "[profile] " ++ e.1 ++ String.ofList (List.replicate blanks ' ') ++ " " ++ toString e.2

theorem profiled_count (e : String × Nat) : Profiled e (Note.count e.1 e.2).text := by
  refine ⟨8 - e.1.length, by omega, ?_⟩
  show "[profile] " ++ padRight 8 e.1 ++ " " ++ toString e.2 = _
  rw [padRight, ← String.append_assoc]

end Bytecode
