import Bytecode.Proofs.Json.Parsing

/-! Written values. What is written for a token is one of its spellings as long as its numerals are strict, so that the text
    of a value is read back as the same value (`parse?_text`). -/

namespace Bytecode.Json
open Text

/-! ### Tokens -/

theorem escapes_of_escapeLetter? {c letter : Char} (h : escapeLetter? c = some letter) : (letter, c) ∈ escapes := by
  unfold escapeLetter? at h
  split at h
  all_goals cases h
  all_goals simp [escapes]

theorem unitSpelled_small {n : Nat} (hn : n < 0x20) :
    UnitSpelled n ['0', '0', Nat.digitChar (n / 16), Nat.digitChar (n % 16)] := by
  have hzero : HexDigit 0 '0' := .small (by decide)
  have hunit := UnitSpelled.digits hzero hzero (.small (by omega : n / 16 < 16)) (.small (Nat.mod_lt n (by decide)))
  rwa [show ((0 * 16 + 0) * 16 + n / 16) * 16 + n % 16 = n by omega] at hunit

theorem spellChar_spelled (c : Char) : CharSpelled c (spellChar c) := by
  unfold spellChar
  split
  · rename_i letter hletter
    exact .letter (escapes_of_escapeLetter? hletter)
  · rename_i hnone
    split
    · rename_i hsmall
      exact .unit (unitSpelled_small hsmall)
    · rename_i hprintable
      refine .plain (Nat.le_of_not_lt hprintable) ?_ ?_
      · rintro rfl
        cases hnone
      · rintro rfl
        cases hnone

theorem spellString_spelled (s : Option String) : StringSpelled s (spellString s) := by
  cases s with
  | none => exact stringSpelled_iff.mpr ⟨[pieceOf 0xd800], _, .cons (.unit rfl) .nil, rfl, rfl⟩
  | some s =>
    refine ⟨s.toList.map spellChar, ?_, by rw [spellString, List.flatMap_def]⟩
    rw [List.forall₂_map_right_iff, List.forall₂_same]
    exact fun c _ => spellChar_spelled c

theorem spellNumeral_spelled {n : Numeral} (hn : n.Strict) : NumeralSpelled n (spellNumeral n) := by
  rcases n with ⟨negative, whole, fraction, _ | ⟨minus, digits⟩⟩
  · exact ⟨hn, [], .absent, by simp [spellNumeral, signText, fractionText]⟩
  · have hsign : SignSpelled minus [if minus then '-' else '+'] := by
      cases minus
      · exact .plus
      · exact .minus
    exact ⟨hn, _, .present (.inl rfl) hsign, by simp [spellNumeral, signText, fractionText]⟩

/-- All numerals of the value are strict. -/
def Strict (j : Json) : Prop :=
  ∀ n, Token.num n ∈ j.tokens → n.Strict

theorem spell_spelled {t : Token} (ht : ∀ n, t = .num n → n.Strict) : t.Spelled t.spell := by
  cases t with
  | num n => exact spellNumeral_spelled (ht n rfl)
  | str s => exact spellString_spelled s
  | _ => rfl

theorem parse?_text {j : Json} (hj : j.Strict) : parse? j.text = some j := by
  have hspaced : ∀ ts : List Token, (∀ n, Token.num n ∈ ts → n.Strict) → Spaced ts (ts.flatMap Token.spell) := by
    intro ts hts
    induction ts with
    | nil => exact .done (by simp [Blank])
    | cons t ts ih =>
      have ht : t.Spelled t.spell := spell_spelled fun n hn => hts n (by simp [hn])
      have hts' : Spaced ts (ts.flatMap Token.spell) := ih fun n hn => hts n (by simp [hn])
      have hblank : Blank [] := by simp [Blank]
      exact .next hblank ht hts'
  rw [parse?_iff, text, String.toList_ofList]
  exact hspaced j.tokens hj

/-! ### Values -/

theorem mem_itemTokens {n : Numeral} {items : List Json} :
    Token.num n ∈ itemTokens items ↔ ∃ j ∈ items, Token.num n ∈ j.tokens := by
  induction items with
  | nil => simp [itemTokens]
  | cons j items ih =>
    cases items with
    | nil => simp [itemTokens]
    | cons next items => simp [itemTokens, ih]

theorem mem_memberTokens {n : Numeral} {members : List (Option String × Json)} :
    Token.num n ∈ memberTokens members ↔ ∃ m ∈ members, Token.num n ∈ m.2.tokens := by
  induction members with
  | nil => simp [memberTokens]
  | cons m members ih =>
    obtain ⟨name, j⟩ := m
    cases members with
    | nil => simp [memberTokens]
    | cons next members => simp [memberTokens, ih]

theorem strict_arr {items : List Json} (h : ∀ j ∈ items, j.Strict) : (Json.arr items).Strict := by
  intro n hn
  have hitems : Token.num n ∈ itemTokens items := by simpa [tokens] using hn
  obtain ⟨j, hj, hn⟩ := mem_itemTokens.mp hitems
  exact h j hj n hn

theorem strict_obj {members : List (Option String × Json)} (h : ∀ m ∈ members, m.2.Strict) :
    (Json.obj members).Strict := by
  intro n hn
  have hmembers : Token.num n ∈ memberTokens members := by simpa [tokens] using hn
  obtain ⟨m, hm, hn⟩ := mem_memberTokens.mp hmembers
  exact h m hm n hn

/-! ### Depth -/

mutual

/-- How many arrays and objects are open inside each other at most. -/
def depth : Json → Nat
  | .arr items => itemsDepth items + 1
  | .obj members => membersDepth members + 1
  | _ => 0

def itemsDepth : List Json → Nat
  | [] => 0
  | j :: rest => max j.depth (itemsDepth rest)

def membersDepth : List (Option String × Json) → Nat
  | [] => 0
  | (_, j) :: rest => max j.depth (membersDepth rest)

end

theorem itemsDepth_le_iff {items : List Json} {n : Nat} : itemsDepth items ≤ n ↔ ∀ j ∈ items, j.depth ≤ n := by
  induction items with
  | nil => simp [itemsDepth]
  | cons j rest ih => simp [itemsDepth, ih]

theorem depth_arr_le_iff {items : List Json} {depth : Nat} :
    (Json.arr items).depth ≤ depth ↔ ∃ n, depth = n + 1 ∧ ∀ j ∈ items, j.depth ≤ n := by
  rw [Json.depth]
  cases depth <;> simp [itemsDepth_le_iff]

end Bytecode.Json
