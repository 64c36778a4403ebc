import Bytecode.Json.Token
import Mathlib.Data.List.Forall2

/-! The spellings of strings. A string has characters between quotes, each of which may be escaped by a letter or by its unit in
    hexadecimal digits, and a character outside of the units by a surrogate pair. A unit that is half of such a pair may
    stand by itself, but then the string is no text. Strings are recognised part by part, and the parts joined to
    characters, just if they are spelled so (`stringSpelled_iff`). -/

namespace Bytecode.Json

/-! ### The spellings of strings -/

/-- The letters that may stand behind a backslash, and the characters that they stand for. -/
def escapes : List (Char × Char) :=
  [('"', '"'), ('\\', '\\'), ('/', '/'), ('b', '\x08'), ('f', '\x0c'), ('n', '\n'), ('r', '\r'), ('t', '\t')]

/-- A hexadecimal digit, whose letter may be small or large. -/
inductive HexDigit : Nat → Char → Prop where
  | small {n : Nat} (h : n < 16) : HexDigit n (Nat.digitChar n)
  | large {n : Nat} (h : n < 16) : HexDigit n (Nat.digitChar n).toUpper

/-- A 16-bit unit is spelled by four hexadecimal digits. -/
inductive UnitSpelled : Nat → List Char → Prop where
  | digits {a b c d : Nat} {w x y z : Char} (first : HexDigit a w) (second : HexDigit b x) (third : HexDigit c y)
      (fourth : HexDigit d z) : UnitSpelled (((a * 16 + b) * 16 + c) * 16 + d) [w, x, y, z]

/-- A character is spelled as it is, if it may stand in a string by itself, by a letter behind a backslash, by its unit,
or, if it needs two units, by the high and the low half of a surrogate pair. -/
inductive CharSpelled : Char → List Char → Prop where
  | plain {c : Char} (printable : 0x20 ≤ c.toNat) (quote : c ≠ '"') (backslash : c ≠ '\\') : CharSpelled c [c]
  | letter {l c : Char} (stands : (l, c) ∈ escapes) : CharSpelled c ['\\', l]
  | unit {c : Char} {hex : List Char} (spelled : UnitSpelled c.toNat hex) : CharSpelled c ('\\' :: 'u' :: hex)
  | pair {c : Char} {high low : Nat} {hex hex' : List Char} (value : c.toNat = 0x10000 + high * 0x400 + low)
      (small : low < 0x400) (first : UnitSpelled (0xd800 + high) hex) (second : UnitSpelled (0xdc00 + low) hex') :
      CharSpelled c ('\\' :: 'u' :: hex ++ '\\' :: 'u' :: hex')

/-- What may stand in a string at all: a character, or a unit of which nothing more is asked. -/
inductive ItemSpelled : List Char → Prop where
  | char {c : Char} {cs : List Char} (spelled : CharSpelled c cs) : ItemSpelled cs
  | unit {n : Nat} {hex : List Char} (spelled : UnitSpelled n hex) : ItemSpelled ('\\' :: 'u' :: hex)

/-- A text is spelled by its characters between quotes. -/
def TextSpelled (s : String) (cs : List Char) : Prop :=
  ∃ parts, List.Forall₂ CharSpelled s.toList parts ∧ cs = '"' :: parts.flatten ++ ['"']

/-- The spellings of a string. One that is no text still has quotes around what may stand in a string. -/
def StringSpelled : Option String → List Char → Prop
  | some s, cs => TextSpelled s cs
  | none, cs =>
    (∃ parts : List (List Char), (∀ part ∈ parts, ItemSpelled part) ∧ cs = '"' :: parts.flatten ++ ['"']) ∧
      ∀ s, ¬TextSpelled s cs

/-! ### Recognising strings -/

/-- The spelling of a part of a string, as it is recognised. -/
inductive Piece.Spelled : Piece → List Char → Prop where
  | plain {c : Char} (printable : 0x20 ≤ c.toNat) (quote : c ≠ '"') (backslash : c ≠ '\\') : Spelled (.char c) [c]
  | letter {l c : Char} (stands : unescape? l = some c) : Spelled (.char c) ['\\', l]
  | unit {a b c d : Char} {n : Nat} (hex : hexUnit? a b c d = some n) : Spelled (pieceOf n) ['\\', 'u', a, b, c, d]

/-- The spellings of the parts of a string one after the other. -/
inductive PiecesSpelled : List Piece → List Char → Prop where
  | nil : PiecesSpelled [] []
  | cons {p : Piece} {parts : List Piece} {cs rest : List Char} (first : p.Spelled cs) (others : PiecesSpelled parts rest) :
      PiecesSpelled (p :: parts) (cs ++ rest)

theorem pieces?_spelled {p : Piece} {cs : List Char} (h : p.Spelled cs) (rest : List Char) :
    pieces? (cs ++ rest) = (pieces? rest).map fun r => (p :: r.1, r.2) := by
  cases h with
  | @plain c printable quote backslash =>
    have hplain : ¬(c.toNat < 0x20 ∨ c = '\\') := by
      rintro (hlt | heq)
      · omega
      · exact backslash heq
    rw [List.singleton_append, pieces?.eq_5 c rest quote (fun _ _ _ _ _ heq => absurd heq backslash)
      (fun _ _ heq => absurd heq backslash), if_neg hplain]
    cases pieces? rest <;> rfl
  | @letter l c stands =>
    have hunit : l ≠ 'u' := by
      rintro rfl
      cases stands
    rw [List.cons_append, List.singleton_append, pieces?.eq_4 l rest (fun _ _ _ _ _ heq => absurd heq hunit), stands]
    cases pieces? rest <;> rfl
  | @unit a b c d n hex =>
    simp only [List.cons_append, List.nil_append, pieces?, hex]
    cases pieces? rest <;> rfl

theorem pieces?_complete {parts : List Piece} {body : List Char} (h : PiecesSpelled parts body) (rest : List Char) :
    pieces? (body ++ '"' :: rest) = some (parts, rest) := by
  induction h with
  | nil => rfl
  | cons first _ ih => rw [List.append_assoc, pieces?_spelled first, ih, Option.map_some]

theorem pieces?_sound {cs rest : List Char} {parts : List Piece} (h : pieces? cs = some (parts, rest)) :
    ∃ body, PiecesSpelled parts body ∧ cs = body ++ '"' :: rest := by
  induction cs using pieces?.induct generalizing parts with
  | case1 => cases h
  | case2 rest' =>
    cases h
    exact ⟨[], .nil, rfl⟩
  | case3 a b c d rest' ih =>
    rw [pieces?.eq_3] at h
    obtain ⟨n, hn, h⟩ := Option.bind_eq_some_iff.mp h
    obtain ⟨⟨others, rest''⟩, hr, h⟩ := Option.bind_eq_some_iff.mp h
    cases h
    obtain ⟨body, hbody, rfl⟩ := ih hr
    exact ⟨_, .cons (.unit hn) hbody, rfl⟩
  | case4 l rest' hunit ih =>
    rw [pieces?.eq_4 l rest' hunit] at h
    obtain ⟨c, hc, h⟩ := Option.bind_eq_some_iff.mp h
    obtain ⟨⟨others, rest''⟩, hr, h⟩ := Option.bind_eq_some_iff.mp h
    cases h
    obtain ⟨body, hbody, rfl⟩ := ih hr
    exact ⟨_, .cons (.letter hc) hbody, rfl⟩
  -- A character that is neither escaped nor allowed by itself.
  | case5 c rest' hquote hunit hletter hbad _ =>
    rw [pieces?.eq_5 c rest' hquote hunit hletter, if_pos hbad] at h
    cases h
  | case6 c rest' hquote hunit hletter hplain ih =>
    rw [pieces?.eq_5 c rest' hquote hunit hletter, if_neg hplain] at h
    obtain ⟨⟨others, rest''⟩, hr, h⟩ := Option.bind_eq_some_iff.mp h
    cases h
    obtain ⟨body, hbody, rfl⟩ := ih hr
    obtain ⟨hprintable, hbackslash⟩ := not_or.mp hplain
    exact ⟨_, .cons (.plain (Nat.le_of_not_lt hprintable) hquote hbackslash) hbody, rfl⟩

theorem PiecesSpelled.append {ps qs : List Piece} {cs ds : List Char} (h : PiecesSpelled ps cs)
    (h' : PiecesSpelled qs ds) : PiecesSpelled (ps ++ qs) (cs ++ ds) := by
  induction h with
  | nil => exact h'
  | cons first _ ih =>
    rw [List.append_assoc]
    exact .cons first ih

theorem PiecesSpelled.single {p : Piece} {cs : List Char} (h : p.Spelled cs) : PiecesSpelled [p] cs :=
  List.append_nil cs ▸ .cons h .nil

theorem unescape?_iff {l c : Char} : unescape? l = some c ↔ (l, c) ∈ escapes := by
  constructor
  · intro h
    unfold unescape? at h
    split at h
    all_goals cases h
    all_goals simp [escapes]
  · intro h
    have hall : ∀ pair ∈ escapes, unescape? pair.1 = some pair.2 := by decide
    exact hall _ h

theorem hexDigit?_iff {c : Char} {n : Nat} : hexDigit? c = some n ↔ HexDigit n c := by
  constructor
  · intro h
    have hsmall : c.toNat < 128 := by
      unfold hexDigit? at h
      split at h
      · rename_i hc
        exact Nat.lt_of_le_of_lt (Char.le_def.mp hc.2) (by decide)
      · split at h
        · rename_i hc
          exact Nat.lt_of_le_of_lt (Char.le_def.mp hc.2) (by decide)
        · split at h
          · rename_i hc
            exact Nat.lt_of_le_of_lt (Char.le_def.mp hc.2) (by decide)
          · cases h
    have hall : ∀ k < 128, ∀ n ∈ hexDigit? (Char.ofNat k), n < 16 ∧
        (Char.ofNat k = Nat.digitChar n ∨ Char.ofNat k = (Nat.digitChar n).toUpper) := by decide
    obtain ⟨hn, hc | hc⟩ := hall c.toNat hsmall n (by rwa [Char.ofNat_toNat])
    · rw [Char.ofNat_toNat] at hc
      exact hc ▸ .small hn
    · rw [Char.ofNat_toNat] at hc
      exact hc ▸ .large hn
  · intro h
    have hall : ∀ n < 16, hexDigit? (Nat.digitChar n) = some n ∧ hexDigit? (Nat.digitChar n).toUpper = some n := by decide
    cases h with
    | small hn => exact (hall n hn).1
    | large hn => exact (hall n hn).2

theorem hexUnit?_iff {w x y z : Char} {n : Nat} : hexUnit? w x y z = some n ↔ UnitSpelled n [w, x, y, z] := by
  constructor
  · intro h
    obtain ⟨a, ha, h⟩ := Option.bind_eq_some_iff.mp h
    obtain ⟨b, hb, h⟩ := Option.bind_eq_some_iff.mp h
    obtain ⟨c, hc, h⟩ := Option.bind_eq_some_iff.mp h
    obtain ⟨d, hd, ⟨⟩⟩ := Option.bind_eq_some_iff.mp h
    exact .digits (hexDigit?_iff.mp ha) (hexDigit?_iff.mp hb) (hexDigit?_iff.mp hc) (hexDigit?_iff.mp hd)
  · rintro ⟨ha, hb, hc, hd⟩
    rw [hexUnit?, hexDigit?_iff.mpr ha, hexDigit?_iff.mpr hb, hexDigit?_iff.mpr hc, hexDigit?_iff.mpr hd]
    rfl

theorem UnitSpelled.piece {n : Nat} {hex : List Char} (h : UnitSpelled n hex) :
    (pieceOf n).Spelled ('\\' :: 'u' :: hex) := by
  obtain ⟨_, _, _, _⟩ := id h
  exact .unit (hexUnit?_iff.mpr h)

theorem toNat_ofNat {n : Nat} (h : n.isValidChar) : (Char.ofNat n).toNat = n := by
  rw [Char.ofNat, dif_pos h]
  rfl

theorem pieceOf_toNat (c : Char) : pieceOf c.toNat = .char c := by
  have hvalid : ¬(0xd800 ≤ c.toNat ∧ c.toNat ≤ 0xdfff) := by
    rcases c.valid with hlow | ⟨hhigh, -⟩
    · exact fun h => absurd hlow (Nat.not_lt.mpr h.1)
    · exact fun h => absurd hhigh (Nat.not_lt.mpr h.2)
  rw [pieceOf, if_neg hvalid, Char.ofNat_toNat]

/-- A character is recognised in one or two parts, which are joined to it whatever follows. -/
theorem CharSpelled.pieces {c : Char} {cs : List Char} (h : CharSpelled c cs) :
    ∃ ps, PiecesSpelled ps cs ∧ ∀ rest, join? (ps ++ rest) = (join? rest).map (c :: ·) := by
  cases h with
  | plain printable quote backslash => exact ⟨_, .single (.plain printable quote backslash), fun _ => rfl⟩
  | letter stands => exact ⟨_, .single (.letter (unescape?_iff.mpr stands)), fun _ => rfl⟩
  | unit spelled =>
    refine ⟨_, .single spelled.piece, fun rest => ?_⟩
    rw [pieceOf_toNat]
    rfl
  | @pair _ high low hex hex' value small first second =>
    have hchar : high < 0x400 := by
      rcases c.valid with hlow | ⟨-, hhigh⟩
      · change c.toNat < _ at hlow
        omega
      · change c.toNat < _ at hhigh
        omega
    have hhigh : pieceOf (0xd800 + high) = .half (0xd800 + high) := if_pos (by omega)
    have hlow : pieceOf (0xdc00 + low) = .half (0xdc00 + low) := if_pos (by omega)
    refine ⟨_, (PiecesSpelled.single first.piece).append (.single second.piece), fun rest => ?_⟩
    rw [hhigh, hlow]
    have hjoin : 0x10000 + (0xd800 + high - 0xd800) * 0x400 + (0xdc00 + low - 0xdc00) = c.toNat := by omega
    simp only [List.cons_append, List.nil_append, join?]
    rw [if_pos (by omega), hjoin, Char.ofNat_toNat]

/-- The parts of a text make up its characters. -/
theorem pieces_of_chars {chars : List Char} {parts : List (List Char)} (h : List.Forall₂ CharSpelled chars parts) :
    ∃ ps, PiecesSpelled ps parts.flatten ∧ join? ps = some chars := by
  induction h with
  | nil => exact ⟨[], .nil, rfl⟩
  | cons first _ ih =>
    obtain ⟨ps, hps, hjoin⟩ := first.pieces
    obtain ⟨qs, hqs, hrest⟩ := ih
    exact ⟨ps ++ qs, hps.append hqs, by rw [hjoin, hrest, Option.map_some]⟩

/-- A half of a surrogate pair is recognised from its unit. -/
theorem Piece.Spelled.half {n : Nat} {cs : List Char} (h : (Piece.half n).Spelled cs) :
    0xd800 ≤ n ∧ n ≤ 0xdfff ∧ ∃ hex, cs = '\\' :: 'u' :: hex ∧ UnitSpelled n hex := by
  generalize hp : Piece.half n = p at h
  cases h with
  | plain => cases hp
  | letter => cases hp
  | @unit a b c d k hex =>
    unfold pieceOf at hp
    split at hp
    · rename_i hrange
      cases hp
      exact ⟨hrange.1, hrange.2, _, rfl, hexUnit?_iff.mp hex⟩
    · cases hp

theorem Piece.Spelled.char {c : Char} {cs : List Char} (h : (Piece.char c).Spelled cs) : CharSpelled c cs := by
  generalize hp : Piece.char c = p at h
  cases h with
  | plain printable quote backslash =>
    cases hp
    exact .plain printable quote backslash
  | letter stands =>
    cases hp
    exact .letter (unescape?_iff.mp stands)
  | @unit w x y z n hex =>
    unfold pieceOf at hp
    split at hp
    · cases hp
    · rename_i hrange
      cases hp
      have hunit := hexUnit?_iff.mp hex
      refine .unit ?_
      -- Four digits give less than 65536, and the halves of pairs are excluded, so there is a character.
      have hn : n < 0x10000 := by
        cases hunit with
        | digits first second third fourth =>
          have hlt : ∀ {n c}, HexDigit n c → n < 16 := by rintro _ _ (h | h) <;> exact h
          have := hlt first; have := hlt second; have := hlt third; have := hlt fourth
          omega
      have hvalid : n.isValidChar := by
        unfold Nat.isValidChar
        omega
      rwa [toNat_ofNat hvalid]

/-- Parts that are joined to characters spell them. -/
theorem chars_of_pieces {ps : List Piece} {body chars : List Char} (h : PiecesSpelled ps body)
    (hjoin : join? ps = some chars) : ∃ parts, List.Forall₂ CharSpelled chars parts ∧ body = parts.flatten := by
  induction ps using join?.induct generalizing body chars with
  | case1 =>
    cases h
    cases hjoin
    exact ⟨[], .nil, rfl⟩
  | case2 c rest ih =>
    cases h with
    | cons first others =>
      obtain ⟨chars, hrest, rfl⟩ := Option.map_eq_some_iff.mp hjoin
      obtain ⟨parts, hparts, rfl⟩ := ih others hrest
      exact ⟨_, .cons first.char hparts, rfl⟩
  | case3 high low rest hpair ih =>
    rw [join?, if_pos hpair] at hjoin
    obtain ⟨chars, hrest, rfl⟩ := Option.map_eq_some_iff.mp hjoin
    cases h with
    | cons first others =>
      cases others with
      | cons second others =>
        obtain ⟨parts, hparts, rfl⟩ := ih others hrest
        obtain ⟨hhigh, -, hex, rfl, hfirst⟩ := first.half
        obtain ⟨-, hlow, hex', rfl, hsecond⟩ := second.half
        -- Two halves make a character beyond the first 65536.
        have hvalid : (0x10000 + (high - 0xd800) * 0x400 + (low - 0xdc00)).isValidChar := by
          unfold Nat.isValidChar
          omega
        refine ⟨('\\' :: 'u' :: hex ++ '\\' :: 'u' :: hex') :: parts, .cons ?_ hparts, by simp⟩
        refine .pair (toNat_ofNat hvalid) (by omega) ?_ ?_
        · rwa [Nat.add_sub_cancel' hhigh]
        · rwa [Nat.add_sub_cancel' hpair.2]
  | case4 high low rest hpair =>
    rw [join?, if_neg hpair] at hjoin
    cases hjoin
  | case5 n rest hnext =>
    rw [join?] at hjoin
    · cases hjoin
    · exact hnext

theorem items_of_pieces {ps : List Piece} {body : List Char} (h : PiecesSpelled ps body) :
    ∃ parts : List (List Char), (∀ part ∈ parts, ItemSpelled part) ∧ body = parts.flatten := by
  induction h with
  | nil => exact ⟨[], nofun, rfl⟩
  | @cons p _ cs _ first _ ih =>
    obtain ⟨parts, hparts, rfl⟩ := ih
    refine ⟨cs :: parts, List.forall_mem_cons.mpr ⟨?_, hparts⟩, rfl⟩
    cases p with
    | char c => exact .char first.char
    | half n =>
      obtain ⟨-, -, hex, rfl, hunit⟩ := first.half
      exact .unit hunit

theorem pieces_of_items {parts : List (List Char)} (h : ∀ part ∈ parts, ItemSpelled part) :
    ∃ ps, PiecesSpelled ps parts.flatten := by
  induction parts with
  | nil => exact ⟨[], .nil⟩
  | cons part parts ih =>
    obtain ⟨hpart, hparts⟩ := List.forall_mem_cons.mp h
    obtain ⟨qs, hqs⟩ := ih hparts
    cases hpart with
    | char spelled =>
      obtain ⟨ps, hps, -⟩ := spelled.pieces
      exact ⟨_, hps.append hqs⟩
    | unit spelled => exact ⟨_, .cons spelled.piece hqs⟩

/-- The recognised parts of a string are the only ones it has. -/
theorem PiecesSpelled.unique {ps qs : List Piece} {body : List Char} (h : PiecesSpelled ps body)
    (h' : PiecesSpelled qs body) : ps = qs := by
  have heq := (pieces?_complete h []).symm.trans (pieces?_complete h' [])
  cases heq
  rfl

/-- A string is spelled just if its parts are recognised and joined to it. -/
theorem stringSpelled_iff {s : Option String} {cs : List Char} :
    StringSpelled s cs ↔ ∃ ps body, PiecesSpelled ps body ∧ cs = '"' :: body ++ ['"'] ∧ s = (join? ps).map String.ofList := by
  -- For texts the characters are the joined pieces; what is no text is what no character sequence spells.
  have htext : ∀ {s cs}, TextSpelled s cs ↔
      ∃ ps body, PiecesSpelled ps body ∧ cs = '"' :: body ++ ['"'] ∧ join? ps = some s.toList := by
    intro s cs
    constructor
    · rintro ⟨parts, hparts, rfl⟩
      obtain ⟨ps, hps, hjoin⟩ := pieces_of_chars hparts
      exact ⟨ps, _, hps, rfl, hjoin⟩
    · rintro ⟨ps, body, hps, rfl, hjoin⟩
      obtain ⟨parts, hparts, rfl⟩ := chars_of_pieces hps hjoin
      exact ⟨parts, hparts, rfl⟩
  cases s with
  | some s =>
    have hjoined : ∀ ps, join? ps = some s.toList ↔ some s = (join? ps).map String.ofList := by
      intro ps
      constructor
      · intro h
        rw [h, Option.map_some, String.ofList_toList]
      · intro h
        obtain ⟨chars, hchars, rfl⟩ := Option.map_eq_some_iff.mp h.symm
        rw [hchars, String.toList_ofList]
    show TextSpelled s cs ↔ _
    simp only [htext, hjoined]
  | none =>
    constructor
    · rintro ⟨⟨parts, hparts, rfl⟩, hnone⟩
      obtain ⟨ps, hps⟩ := pieces_of_items hparts
      refine ⟨ps, _, hps, rfl, ?_⟩
      cases hjoin : join? ps with
      | none => rfl
      | some chars => exact absurd (htext.mpr ⟨ps, _, hps, rfl, by rw [hjoin, String.toList_ofList]⟩) (hnone _)
    · rintro ⟨ps, body, hps, rfl, hjoin⟩
      obtain ⟨parts, hparts, hbody⟩ := items_of_pieces hps
      refine ⟨⟨parts, hparts, by rw [hbody]⟩, fun s hs => ?_⟩
      -- The pieces of a body are determined by it, so those of a text would have been joined.
      obtain ⟨qs, body', hqs, heq, hjoined⟩ := htext.mp hs
      obtain rfl : body = body' := List.append_cancel_right (List.cons.inj heq).2
      rw [hps.unique hqs, hjoined] at hjoin
      cases hjoin

end Bytecode.Json
