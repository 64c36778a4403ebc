import Bytecode.Proofs.Json.Strings
import Bytecode.Proofs.Text.Numeral

/-! The spellings of tokens. A numeral has the digits that strict numerals have, and blanks may stand around every token
    (`Spaced`). Recognising a token takes just one of its spellings from a text, and gives
    back a token whose spelling stands at the start, provided that a number is not followed by more of a number. -/

namespace Bytecode.Json
open Text

/-! ### Numbers -/

/-- The sign of an exponent, which need not be written unless it is a minus. -/
inductive SignSpelled : Bool → List Char → Prop where
  | bare : SignSpelled false []
  | plus : SignSpelled false ['+']
  | minus : SignSpelled true ['-']

inductive ExponentSpelled : Option Exponent → List Char → Prop where
  | absent : ExponentSpelled none []
  | present {mark : Char} {negative : Bool} {sign digits : List Char} (marked : mark = 'e' ∨ mark = 'E')
      (signed : SignSpelled negative sign) : ExponentSpelled (some ⟨negative, digits⟩) (mark :: (sign ++ digits))

/-- The point and the digits behind it; without digits there is no point. -/
def fractionText (digits : List Char) : List Char :=
  if digits.isEmpty then [] else '.' :: digits

def signText (negative : Bool) : List Char :=
  if negative then ['-'] else []

/-- A number is spelled by its sign, its digits and its exponent. -/
def NumeralSpelled (n : Numeral) (cs : List Char) : Prop :=
  n.Strict ∧ ∃ exponent, ExponentSpelled n.exponent exponent ∧
    cs = signText n.negative ++ (n.whole ++ (fractionText n.fraction ++ exponent))

/-- What may follow a number in a text: nothing that could be part of it. -/
def Delimited (rest : List Char) : Prop :=
  ∀ c ∈ rest.head?, c.isDigit = false ∧ c ≠ '.' ∧ c ≠ 'e' ∧ c ≠ 'E'

def NoDigit (rest : List Char) : Prop :=
  ∀ c ∈ rest.head?, c.isDigit = false

theorem Delimited.noDigit {rest : List Char} (h : Delimited rest) : NoDigit rest :=
  fun c hc => (h c hc).1

/-- Digits are taken as far as they go. -/
theorem splitDigits_complete {digits rest : List Char} (hdigits : Digits digits) (hrest : NoDigit rest) :
    splitDigits (digits ++ rest) = (digits, rest) := by
  have htake : rest.takeWhile Char.isDigit = [] := by
    cases rest with
    | nil => rfl
    | cons c rest => rw [List.takeWhile_cons_of_neg (by simp [hrest c rfl])]
  have hdrop : rest.dropWhile Char.isDigit = rest := by
    cases rest with
    | nil => rfl
    | cons c rest => rw [List.dropWhile_cons_of_neg (by simp [hrest c rfl])]
  unfold splitDigits
  rw [List.takeWhile_append_of_pos hdigits, List.dropWhile_append_of_pos hdigits, htake, hdrop, List.append_nil]

theorem splitDigits_sound (cs : List Char) : Digits (splitDigits cs).1 ∧ cs = (splitDigits cs).1 ++ (splitDigits cs).2 :=
  ⟨fun _ hc => List.mem_takeWhile_imp hc, List.takeWhile_append_dropWhile.symm⟩

theorem splitSign_spelled {negative : Bool} {sign : List Char} (h : SignSpelled negative sign) {digits : List Char}
    (hdigits : Digits digits) (hpresent : digits ≠ []) (rest : List Char) :
    splitSign (sign ++ (digits ++ rest)) = (negative, digits ++ rest) := by
  cases h with
  | bare =>
    obtain ⟨c, digits, rfl⟩ := List.exists_cons_of_ne_nil hpresent
    have hc := hdigits c List.mem_cons_self
    rw [List.nil_append, List.cons_append]
    refine splitSign.eq_3 _ (fun rest' heq => ?_) fun rest' heq => ?_
    · cases heq
      cases hc
    · cases heq
      cases hc
  | plus => rfl
  | minus => rfl

theorem splitExponent_complete {exponent : Option Exponent} {cs rest : List Char} (h : ExponentSpelled exponent cs)
    (hstrict : ∀ e ∈ exponent, Digits e.digits ∧ e.digits ≠ []) (hrest : Delimited rest) :
    splitExponent (cs ++ rest) = (exponent, rest) := by
  cases h with
  | absent =>
    cases rest with
    | nil => rfl
    | cons c rest =>
      obtain ⟨-, -, he, hE⟩ := hrest c rfl
      simp [splitExponent, he, hE]
  | @present mark negative sign digits marked signed =>
    obtain ⟨hdigits, hpresent⟩ := hstrict _ rfl
    rw [List.cons_append, List.append_assoc, splitExponent, if_pos marked, splitSign_spelled signed hdigits hpresent]
    dsimp only
    rw [splitDigits_complete hdigits hrest.noDigit, if_neg (by simpa using hpresent)]

theorem splitSign_sound (cs : List Char) : ∃ sign, SignSpelled (splitSign cs).1 sign ∧ cs = sign ++ (splitSign cs).2 := by
  unfold splitSign
  split
  · exact ⟨['-'], .minus, rfl⟩
  · exact ⟨['+'], .plus, rfl⟩
  · exact ⟨[], .bare, rfl⟩

/-- What is taken as an exponent is one, with digits in it. -/
theorem splitExponent_sound (cs : List Char) :
    ∃ front, ExponentSpelled (splitExponent cs).1 front ∧ cs = front ++ (splitExponent cs).2 ∧
      ∀ e ∈ (splitExponent cs).1, Digits e.digits ∧ e.digits ≠ [] := by
  unfold splitExponent
  split
  · exact ⟨[], .absent, rfl, nofun⟩
  · rename_i c rest
    split
    · rename_i hmark
      obtain ⟨sign, hsign, hrest⟩ := splitSign_sound rest
      obtain ⟨hdigits, hafter⟩ := splitDigits_sound (splitSign rest).2
      dsimp only
      split
      · exact ⟨[], .absent, rfl, nofun⟩
      · rename_i hpresent
        refine ⟨_, .present hmark hsign, ?_, ?_⟩
        · rw [List.cons_append, List.append_assoc, ← hafter, ← hrest]
        · rintro e ⟨⟩
          exact ⟨hdigits, by simpa using hpresent⟩
    · exact ⟨[], .absent, rfl, nofun⟩

/-- Splits off a point with digits behind it. -/
def splitFraction (cs : List Char) : List Char × List Char :=
  match cs with
  | '.' :: after => if (splitDigits after).1.isEmpty then ([], cs) else splitDigits after
  | _ => ([], cs)

/-- A number without its sign, and what follows it. -/
def unsigned? (negative : Bool) (cs : List Char) : Option (Numeral × List Char) :=
  let whole := splitDigits cs
  let fraction := splitFraction whole.2
  let exponent := splitExponent fraction.2
  if whole.1.isEmpty ∨ (whole.1.head? = some '0' ∧ whole.1.length ≠ 1) then none
  else some (⟨negative, whole.1, fraction.1, exponent.1⟩, exponent.2)

theorem numeral?_minus (rest : List Char) : numeral? ('-' :: rest) = unsigned? true rest := by
  unfold numeral? unsigned? splitFraction
  rfl

theorem numeral?_bare {cs : List Char} (h : ∀ rest, cs ≠ '-' :: rest) : numeral? cs = unsigned? false cs := by
  unfold numeral? unsigned? splitFraction
  split
  rename_i heq
  split at heq
  · exact absurd rfl (h _)
  · cases heq
    rfl

theorem splitFraction_complete {fraction rest : List Char} (hdigits : Digits fraction) (hrest : NoDigit rest)
    (hpoint : rest.head? ≠ some '.') : splitFraction (fractionText fraction ++ rest) = (fraction, rest) := by
  cases fraction with
  | nil =>
    refine splitFraction.eq_2 _ fun after heq => hpoint ?_
    rw [show rest = '.' :: after from heq]
    rfl
  | cons c fraction =>
    show splitFraction ('.' :: ((c :: fraction) ++ rest)) = _
    rw [splitFraction, splitDigits_complete hdigits hrest]
    rfl

theorem splitFraction_sound (cs : List Char) :
    Digits (splitFraction cs).1 ∧ cs = fractionText (splitFraction cs).1 ++ (splitFraction cs).2 := by
  unfold splitFraction
  split
  · rename_i after
    obtain ⟨hdigits, hafter⟩ := splitDigits_sound after
    split
    · exact ⟨nofun, rfl⟩
    · rename_i hpresent
      refine ⟨hdigits, ?_⟩
      rw [fractionText, if_neg hpresent, List.cons_append, ← hafter]
  · exact ⟨nofun, rfl⟩

/-- What comes behind the digits of a number does not start with a digit. -/
theorem noDigit_exponent {exponent : Option Exponent} {cs rest : List Char} (h : ExponentSpelled exponent cs)
    (hrest : Delimited rest) : NoDigit (cs ++ rest) ∧ (cs ++ rest).head? ≠ some '.' := by
  cases h with
  | absent => exact ⟨hrest.noDigit, fun hpoint => (hrest _ hpoint).2.1 rfl⟩
  | present marked signed =>
    rcases marked with rfl | rfl
    · exact ⟨by rintro c ⟨⟩; rfl, nofun⟩
    · exact ⟨by rintro c ⟨⟩; rfl, nofun⟩

theorem noDigit_fraction {fraction rest : List Char} (hrest : NoDigit rest) : NoDigit (fractionText fraction ++ rest) := by
  cases fraction with
  | nil => exact hrest
  | cons c fraction =>
    rintro c ⟨⟩
    rfl

theorem unsigned?_complete {n : Numeral} (hn : n.Strict) {exponent rest : List Char}
    (he : ExponentSpelled n.exponent exponent) (hrest : Delimited rest) (negative : Bool) :
    unsigned? negative (n.whole ++ (fractionText n.fraction ++ (exponent ++ rest))) =
      some ({ n with negative := negative }, rest) := by
  obtain ⟨hdigit, hpoint⟩ := noDigit_exponent he hrest
  have hgood : ¬(n.whole.isEmpty = true ∨ n.whole.head? = some '0' ∧ n.whole.length ≠ 1) := by
    rintro (hempty | ⟨hhead, hlength⟩)
    · exact hn.present (List.isEmpty_iff.mp hempty)
    · exact hlength (hn.leading hhead)
  unfold unsigned?
  dsimp only
  rw [splitDigits_complete hn.whole (noDigit_fraction hdigit)]
  dsimp only
  rw [splitFraction_complete hn.fraction hdigit hpoint, if_neg hgood]
  dsimp only
  rw [splitExponent_complete he hn.exponent hrest]

/-- A numeral is recognised where nothing behind it could be a part of it. -/
theorem numeral?_complete {n : Numeral} {cs rest : List Char} (h : NumeralSpelled n cs) (hrest : Delimited rest) :
    numeral? (cs ++ rest) = some (n, rest) := by
  obtain ⟨hn, exponent, he, rfl⟩ := h
  have hread := unsigned?_complete hn he hrest
  obtain ⟨negative, whole, fraction, exp⟩ := n
  simp only [List.append_assoc]
  cases negative with
  | true => exact (numeral?_minus _).trans (hread true)
  | false =>
    -- A number without a sign starts with a digit, which is no minus.
    obtain ⟨c, whole, rfl⟩ := List.exists_cons_of_ne_nil hn.present
    have hc : c ≠ '-' := by
      rintro rfl
      cases hn.whole '-' List.mem_cons_self
    exact (numeral?_bare fun rest heq => hc (List.cons.inj heq).1).trans (hread false)

theorem unsigned?_sound {negative : Bool} {cs rest : List Char} {n : Numeral} (h : unsigned? negative cs = some (n, rest)) :
    n.negative = negative ∧ n.Strict ∧ ∃ exponent, ExponentSpelled n.exponent exponent ∧
      cs = n.whole ++ (fractionText n.fraction ++ (exponent ++ rest)) := by
  unfold unsigned? at h
  dsimp only at h
  split at h
  · cases h
  · rename_i hgood
    obtain ⟨hempty, hleading⟩ := not_or.mp hgood
    cases h
    obtain ⟨hwhole, hcs⟩ := splitDigits_sound cs
    obtain ⟨hfraction, hrest⟩ := splitFraction_sound (splitDigits cs).2
    obtain ⟨exponent, he, hafter, hexponent⟩ := splitExponent_sound (splitFraction (splitDigits cs).2).2
    refine ⟨rfl, ⟨hwhole, fun hnil => hempty ?_, fun hhead => ?_, hfraction, hexponent⟩, exponent, he, ?_⟩
    · rw [List.isEmpty_iff]
      exact hnil
    · by_contra hlength
      exact hleading ⟨hhead, hlength⟩
    · rw [← hafter, ← hrest, ← hcs]

/-- What is recognised as a numeral is the spelling of it. -/
theorem numeral?_sound {cs rest : List Char} {n : Numeral} (h : numeral? cs = some (n, rest)) :
    ∃ front, NumeralSpelled n front ∧ cs = front ++ rest := by
  by_cases hminus : ∃ rest', cs = '-' :: rest'
  · obtain ⟨rest', rfl⟩ := hminus
    rw [numeral?_minus] at h
    obtain ⟨hnegative, hn, exponent, he, rfl⟩ := unsigned?_sound h
    refine ⟨_, ⟨hn, exponent, he, rfl⟩, ?_⟩
    simp [signText, hnegative]
  · rw [numeral?_bare (not_exists.mp hminus)] at h
    obtain ⟨hnegative, hn, exponent, he, rfl⟩ := unsigned?_sound h
    refine ⟨_, ⟨hn, exponent, he, rfl⟩, ?_⟩
    simp [signText, hnegative]

/-! ### Tokens -/

/-- The spellings of a token. -/
def Token.Spelled : Token → List Char → Prop
  | .num n, cs => NumeralSpelled n cs
  | .str s, cs => StringSpelled s cs
  | t, cs => cs = t.spell

/-- The token is not a number, or it is followed by nothing that could be part of one. -/
def Token.Stops (t : Token) (rest : List Char) : Prop :=
  ∀ n, t = .num n → Delimited rest

theorem NumeralSpelled.head {n : Numeral} {cs : List Char} (h : NumeralSpelled n cs) :
    ∃ c rest, cs = c :: rest ∧ (c = '-' ∨ c.isDigit = true) := by
  obtain ⟨hn, exponent, -, rfl⟩ := h
  unfold signText
  split
  · exact ⟨'-', _, rfl, Or.inl rfl⟩
  · obtain ⟨c, whole, hwhole⟩ := List.exists_cons_of_ne_nil hn.present
    rw [hwhole]
    exact ⟨c, _, rfl, Or.inr (hn.whole c (by rw [hwhole]; exact List.mem_cons_self))⟩

theorem token?_number {c : Char} (hc : c = '-' ∨ c.isDigit = true) (rest : List Char) :
    token? (c :: rest) = (numeral? (c :: rest)).map fun p => (.num p.1, p.2) := by
  have hne : ∀ d : Char, d ≠ '-' → d.isDigit = false → c ≠ d := by
    rintro d hminus hdigit rfl
    rcases hc with rfl | hc
    · exact hminus rfl
    · rw [hdigit] at hc
      cases hc
  refine token?.eq_11 _ ?_ ?_ ?_ ?_ ?_ ?_ ?_ ?_ ?_ ?_ <;>
    exact fun _ heq => hne _ (by decide) (by decide) (List.cons.inj heq).1

/-- A token is recognised in front of anything that ends it. -/
theorem token?_complete {t : Token} {cs rest : List Char} (h : t.Spelled cs) (hstops : t.Stops rest) :
    token? (cs ++ rest) = some (t, rest) := by
  cases t with
  | num n =>
    obtain ⟨c, cs', rfl, hc⟩ := NumeralSpelled.head h
    have hread := numeral?_complete h (hstops n rfl)
    rw [List.cons_append] at hread ⊢
    rw [token?_number hc, hread, Option.map_some]
  | str s =>
    obtain ⟨parts, body, hbody, rfl, rfl⟩ := stringSpelled_iff.mp h
    have hread := pieces?_complete hbody rest
    simp only [List.cons_append, List.append_assoc, List.nil_append] at hread ⊢
    simp [token?, hread]
  | bool b => cases b <;> (cases h; rfl)
  | _ =>
    cases h
    rfl

/-- What is recognised as a token is the spelling of it. -/
theorem token?_sound {t : Token} {cs rest : List Char} (h : token? cs = some (t, rest)) :
    ∃ front, t.Spelled front ∧ cs = front ++ rest := by
  unfold token? at h
  split at h
  case h_10 =>
    obtain ⟨⟨parts, rest'⟩, hr, heq⟩ := Option.map_eq_some_iff.mp h
    cases heq
    obtain ⟨body, hbody, rfl⟩ := pieces?_sound hr
    exact ⟨'"' :: body ++ ['"'], stringSpelled_iff.mpr ⟨parts, body, hbody, rfl, rfl⟩, by simp⟩
  case h_11 =>
    obtain ⟨⟨n, rest'⟩, hr, heq⟩ := Option.map_eq_some_iff.mp h
    cases heq
    exact numeral?_sound hr
  all_goals
    cases h
    exact ⟨_, rfl, rfl⟩

/-! ### Blanks -/

/-- Only spaces, tabs and line breaks. -/
def Blank (cs : List Char) : Prop :=
  ∀ c ∈ cs, c = ' ' ∨ c = '\t' ∨ c = '\n' ∨ c = '\r'

theorem isBlank_iff {c : Char} : isBlank c = true ↔ c = ' ' ∨ c = '\t' ∨ c = '\n' ∨ c = '\r' := by
  simp [isBlank, or_assoc]

/-- Tokens one after the other with blanks before, between and after them. -/
inductive Spaced : List Token → List Char → Prop where
  | done {blanks : List Char} (blank : Blank blanks) : Spaced [] blanks
  | next {t : Token} {ts : List Token} {blanks cs rest : List Char} (blank : Blank blanks) (token : t.Spelled cs)
      (others : Spaced ts rest) : Spaced (t :: ts) (blanks ++ (cs ++ rest))

theorem Spaced.blank {ts : List Token} {c : Char} {cs : List Char} (hc : isBlank c = true) (h : Spaced ts cs) :
    Spaced ts (c :: cs) := by
  cases h with
  | done hblank => exact .done (List.forall_mem_cons.mpr ⟨isBlank_iff.mp hc, hblank⟩)
  | next hblank token others => exact .next (List.forall_mem_cons.mpr ⟨isBlank_iff.mp hc, hblank⟩) token others

/-- The tokens that are found make up the text, with nothing but blanks between them. -/
theorem tokensWithin?_sound {bound : Nat} {cs : List Char} {ts : List Token} (h : tokensWithin? bound cs = some ts) :
    Spaced ts cs := by
  induction bound generalizing cs ts with
  | zero =>
    cases cs with
    | nil =>
      cases h
      exact .done nofun
    | cons c cs => cases h
  | succ bound ih =>
    cases cs with
    | nil =>
      cases h
      exact .done nofun
    | cons c cs =>
      rw [tokensWithin?] at h
      split at h
      · rename_i hblank
        exact (ih h).blank hblank
      · obtain ⟨⟨t, rest⟩, ht, h⟩ := Option.bind_eq_some_iff.mp h
        obtain ⟨ts', hts, h⟩ := Option.bind_eq_some_iff.mp h
        cases h
        obtain ⟨front, hfront, heq⟩ := token?_sound ht
        rw [heq]
        have hnone : Blank [] := nofun
        exact .next hnone hfront (ih hts)

theorem tokensWithin?_blanks {blanks : List Char} (hblank : Blank blanks) (cs : List Char) (bound : Nat) :
    tokensWithin? (blanks.length + bound) (blanks ++ cs) = tokensWithin? bound cs := by
  induction blanks with
  | nil => simp
  | cons c blanks ih =>
    obtain ⟨hc, hblank⟩ := List.forall_mem_cons.mp hblank
    rw [List.length_cons, Nat.add_right_comm, List.cons_append, tokensWithin?, if_pos (isBlank_iff.mpr hc), ih hblank]

/-- No token starts with a blank. -/
theorem Token.Spelled.head {t : Token} {cs : List Char} (h : t.Spelled cs) : ∃ c rest, cs = c :: rest ∧ isBlank c = false := by
  cases t with
  | num n =>
    obtain ⟨c, rest, rfl, hc⟩ := NumeralSpelled.head h
    refine ⟨c, rest, rfl, ?_⟩
    rcases hc with rfl | hc
    · rfl
    · have hrange := isDigit_iff.mp hc
      have hne : ∀ d : Char, d.toNat < 48 → c ≠ d := by
        rintro d hd rfl
        omega
      simp [isBlank, hne ' ' (by decide), hne '\t' (by decide), hne '\n' (by decide), hne '\r' (by decide)]
  | str s =>
    obtain ⟨parts, body, -, rfl, -⟩ := stringSpelled_iff.mp h
    exact ⟨'"', _, rfl, rfl⟩
  | bool b =>
    cases h
    cases b <;> exact ⟨_, _, rfl, rfl⟩
  | _ =>
    cases h
    exact ⟨_, _, rfl, rfl⟩

/-- Each number is followed by a comma, by the end of an array or an object, or by nothing. -/
def Apart : List Token → Prop
  | [] => True
  | t :: ts => (∀ n, t = .num n → ∀ next ∈ ts.head?, next = .comma ∨ next = .closeArray ∨ next = .closeObject) ∧ Apart ts

theorem Blank.delimited {blanks rest : List Char} (hblank : Blank blanks) (hrest : Delimited rest) :
    Delimited (blanks ++ rest) := by
  cases blanks with
  | nil => exact hrest
  | cons c blanks =>
    rintro c' ⟨⟩
    rcases hblank c List.mem_cons_self with rfl | rfl | rfl | rfl <;> decide

theorem Spaced.delimited {ts : List Token} {rest : List Char} (h : Spaced ts rest)
    (hnext : ∀ next ∈ ts.head?, next = .comma ∨ next = .closeArray ∨ next = .closeObject) : Delimited rest := by
  cases h with
  | done hblank =>
    have hnone : Delimited [] := nofun
    simpa using hblank.delimited hnone
  | next hblank token _ =>
    refine hblank.delimited ?_
    rcases hnext _ rfl with rfl | rfl | rfl <;>
      · cases token
        rintro c ⟨⟩
        decide

/-- A text with tokens between blanks has just these tokens. -/
theorem tokensWithin?_complete {ts : List Token} {cs : List Char} (h : Spaced ts cs) (hapart : Apart ts) {bound : Nat}
    (hbound : cs.length ≤ bound) : tokensWithin? bound cs = some ts := by
  induction h generalizing bound with
  | @done blanks hblank =>
    obtain ⟨spare, rfl⟩ := Nat.exists_eq_add_of_le hbound
    have hread := tokensWithin?_blanks hblank [] spare
    rw [List.append_nil] at hread
    rw [hread]
    cases spare <;> rfl
  | @next t ts blanks cs rest hblank token others ih =>
    obtain ⟨hnumber, hapart⟩ := hapart
    have hstops : t.Stops rest := fun n hn => others.delimited (hnumber n hn)
    have hread := token?_complete token hstops
    obtain ⟨c, cs', rfl, hc⟩ := token.head
    simp only [List.length_append, List.length_cons] at hbound
    obtain ⟨spare, rfl⟩ : ∃ spare, bound = blanks.length + (spare + 1) := ⟨bound - blanks.length - 1, by omega⟩
    rw [tokensWithin?_blanks hblank, List.cons_append, tokensWithin?, if_neg (by simp [hc])]
    rw [List.cons_append] at hread
    have hothers : tokensWithin? spare rest = some ts := ih hapart (by omega)
    simp only [hread, Option.bind_eq_bind, Option.bind_some, hothers]
    rfl

end Bytecode.Json
