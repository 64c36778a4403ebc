import Bytecode.Json.Parser
import Bytecode.Proofs.Json.Grammar

/-! Reading values from tokens. What has been taken so far can be read off the place and the open arrays and objects
    (`taken`), and every token that is taken is put behind it, so a value is read from its own tokens only. The other way
    around the tokens of a value lead to the place behind it. A text is then read as a value just if it spells the tokens
    of the value, with blanks around them. -/

namespace Bytecode.Json

/-- The text spells the value: its tokens one after the other, with blanks before, between and after them. -/
def Spelled (j : Json) (cs : List Char) : Prop :=
  Spaced j.tokens cs

/-! ### What has been taken -/

/-- The tokens of items that are followed by more items. -/
def itemsSoFar (items : List Json) : List Token :=
  items.flatMap fun j => j.tokens ++ [.comma]

/-- The tokens of members that are followed by more members. -/
def membersSoFar (members : List (Option String × Json)) : List Token :=
  members.flatMap fun m => .str m.1 :: .colon :: m.2.tokens ++ [.comma]

/-- The tokens of the arrays and objects that are still open. -/
def openTokens : List Open → List Token
  | [] => []
  | .array items :: stack => openTokens stack ++ .openArray :: itemsSoFar items.reverse
  | .object members name :: stack =>
    openTokens stack ++ .openObject :: (membersSoFar members.reverse ++ [.str name, .colon])

/-- The tokens that lead to a place. -/
def taken (place : Place) (stack : List Open) : List Token :=
  openTokens stack ++
    match place with
    | .value => []
    | .firstItem => [.openArray]
    | .firstName => [.openObject]
    | .name members => .openObject :: membersSoFar members.reverse
    | .colon members name => .openObject :: (membersSoFar members.reverse ++ [.str name])
    | .after j => j.tokens

theorem itemTokens_concat (items : List Json) (j : Json) :
    itemTokens (items ++ [j]) = itemsSoFar items ++ j.tokens := by
  induction items with
  | nil => simp [itemTokens, itemsSoFar]
  | cons first items ih =>
    cases items with
    | nil => simp [itemTokens, itemsSoFar]
    | cons second items =>
      rw [List.cons_append, List.cons_append, itemTokens, ← List.cons_append, ih]
      simp [itemsSoFar]

theorem memberTokens_concat (members : List (Option String × Json)) (name : Option String) (j : Json) :
    memberTokens (members ++ [(name, j)]) = membersSoFar members ++ .str name :: .colon :: j.tokens := by
  induction members with
  | nil => simp [memberTokens, membersSoFar]
  | cons first members ih =>
    obtain ⟨name', j'⟩ := first
    cases members with
    | nil => simp [memberTokens, membersSoFar]
    | cons second members =>
      rw [List.cons_append, List.cons_append, memberTokens, ← List.cons_append, ih]
      simp [membersSoFar]

section
variable {t : Token} {place place' : Place} {stack stack' : List Open}

theorem taken_startValue (h : startValue t stack = some (place, stack')) :
    taken place stack' = openTokens stack ++ [t] := by
  unfold startValue at h
  split at h <;> cases h <;> simp [taken, tokens]

/-- A token that is taken is put behind those that were. -/
theorem taken_takeToken (h : takeToken t place stack = some (place', stack')) :
    taken place' stack' = taken place stack ++ [t] := by
  unfold takeToken at h
  split at h
  case h_1 =>
    rw [taken_startValue h]
    simp [taken]
  case h_3 =>
    rw [taken_startValue h]
    simp [taken, openTokens, itemsSoFar]
  case h_9 =>
    cases h
    simp [taken, openTokens, tokens, itemTokens_concat]
  case h_11 =>
    cases h
    simp [taken, openTokens, tokens, memberTokens_concat]
  case h_12 => cases h
  all_goals
    cases h
    simp [taken, openTokens, tokens, itemTokens, memberTokens, itemsSoFar, membersSoFar]

theorem taken_ofTokens? {ts : List Token} {j : Json} (h : ofTokens? ts place stack = some j) :
    taken place stack ++ ts = j.tokens := by
  induction ts generalizing place stack with
  | nil =>
    unfold ofTokens? at h
    split at h
    · cases h
      simp [taken, openTokens]
    · cases h
    · rename_i heq
      cases heq
  | cons t ts ih =>
    rw [ofTokens?] at h
    split at h
    · rename_i place' stack' htake
      rw [← ih h, taken_takeToken htake, List.append_assoc, List.singleton_append]
    · cases h

end

/-! ### The tokens of a value -/

/-- A value starts with a token that ends no array. -/
theorem tokens_head (j : Json) : ∃ t ts, j.tokens = t :: ts ∧ t ≠ .closeArray := by
  cases j <;> simp [tokens]

theorem itemTokens_head (j : Json) (items : List Json) : ∃ t ts, itemTokens (j :: items) = t :: ts ∧ t ≠ .closeArray := by
  obtain ⟨t, ts, htokens, ht⟩ := tokens_head j
  cases items with
  | nil => exact ⟨t, ts, by rw [itemTokens, htokens], ht⟩
  | cons next items => exact ⟨t, _, by rw [itemTokens, htokens, List.cons_append], ht⟩

theorem ofTokens?_firstItem {t : Token} (ht : t ≠ .closeArray) (ts : List Token) (stack : List Open) :
    ofTokens? (t :: ts) .firstItem stack = ofTokens? (t :: ts) .value (.array [] :: stack) := by
  rw [ofTokens?, ofTokens?, takeToken.eq_3 t stack ht, takeToken]

mutual

/-- The tokens of a value lead to the place behind it. -/
theorem ofTokens?_tokens : ∀ (j : Json) (rest : List Token) (stack : List Open),
    ofTokens? (j.tokens ++ rest) .value stack = ofTokens? rest (.after j) stack
  | .null, rest, stack => by simp [tokens, ofTokens?, takeToken, startValue]
  | .bool b, rest, stack => by simp [tokens, ofTokens?, takeToken, startValue]
  | .num n, rest, stack => by simp [tokens, ofTokens?, takeToken, startValue]
  | .str s, rest, stack => by simp [tokens, ofTokens?, takeToken, startValue]
  | .arr items, rest, stack => by
    have hitems := ofTokens?_itemTokens items [] rest stack
    cases items with
    | nil => simp [tokens, itemTokens, ofTokens?, takeToken, startValue]
    | cons j items =>
      -- Behind an opening bracket either an item or the closing one may come, so the first token matters.
      obtain ⟨t, ts, htokens, ht⟩ := itemTokens_head j items
      have hfirst := hitems (List.cons_ne_nil j items)
      rw [htokens, List.cons_append, ← ofTokens?_firstItem ht] at hfirst
      simpa [tokens, htokens, ofTokens?, takeToken, startValue] using hfirst
  | .obj members, rest, stack => by
    have hmembers := ofTokens?_memberTokens members [] rest stack
    cases members with
    | nil => simp [tokens, memberTokens, ofTokens?, takeToken, startValue]
    | cons m members =>
      obtain ⟨name, j⟩ := m
      obtain ⟨ts, htokens⟩ : ∃ ts, memberTokens ((name, j) :: members) = .str name :: ts := by
        cases members <;> simp [memberTokens]
      have hfirst := hmembers (List.cons_ne_nil (name, j) members)
      rw [htokens] at hfirst
      simpa [tokens, htokens, ofTokens?, takeToken, startValue] using hfirst

theorem ofTokens?_itemTokens : ∀ (items before : List Json) (rest : List Token) (stack : List Open), items ≠ [] →
    ofTokens? (itemTokens items ++ .closeArray :: rest) .value (.array before :: stack) =
      ofTokens? rest (.after (.arr (before.reverse ++ items))) stack
  | [], _, _, _, hne => absurd rfl hne
  | [j], before, rest, stack, _ => by
    rw [itemTokens, ofTokens?_tokens j]
    simp [ofTokens?, takeToken]
  | j :: next :: items, before, rest, stack, _ => by
    have hnext := ofTokens?_itemTokens (next :: items) (j :: before) rest stack (List.cons_ne_nil next items)
    rw [itemTokens, List.append_assoc, ofTokens?_tokens j]
    simpa [ofTokens?, takeToken] using hnext

theorem ofTokens?_memberTokens : ∀ (members before : List (Option String × Json)) (rest : List Token)
    (stack : List Open), members ≠ [] →
    ofTokens? (memberTokens members ++ .closeObject :: rest) (.name before) stack =
      ofTokens? rest (.after (.obj (before.reverse ++ members))) stack
  | [], _, _, _, hne => absurd rfl hne
  | [(name, j)], before, rest, stack, _ => by
    have hj := ofTokens?_tokens j (.closeObject :: rest) (.object before name :: stack)
    simpa [memberTokens, ofTokens?, takeToken] using hj
  | (name, j) :: next :: members, before, rest, stack, _ => by
    have hnext := ofTokens?_memberTokens (next :: members) ((name, j) :: before) rest stack (List.cons_ne_nil next members)
    have hj := ofTokens?_tokens j (.comma :: (memberTokens (next :: members) ++ .closeObject :: rest))
      (.object before name :: stack)
    simp only [memberTokens, List.cons_append, List.append_assoc, ofTokens?, takeToken, hj]
    simpa using hnext

end

/-- A value is read from its own tokens and from no others. -/
theorem ofTokens?_iff {ts : List Token} {j : Json} : ofTokens? ts .value [] = some j ↔ ts = j.tokens := by
  constructor
  · exact fun h => taken_ofTokens? h
  · rintro rfl
    have h := ofTokens?_tokens j [] []
    rwa [List.append_nil] at h

/-! ### Texts -/

/-- What may follow a value: a comma, the end of an array or an object, or nothing. -/
def Closes (rest : List Token) : Prop :=
  ∀ next ∈ rest.head?, next = .comma ∨ next = .closeArray ∨ next = .closeObject

mutual

theorem apart_tokens : ∀ (j : Json) {rest : List Token}, Apart rest → Closes rest → Apart (j.tokens ++ rest)
  | .null, _, hrest, _ => ⟨nofun, hrest⟩
  | .bool _, _, hrest, _ => ⟨nofun, hrest⟩
  | .str _, _, hrest, _ => ⟨nofun, hrest⟩
  | .num _, _, hrest, hcloses => ⟨fun _ _ => hcloses, hrest⟩
  | .arr items, rest, hrest, _ => by
    have hclose : Apart (.closeArray :: rest) := ⟨nofun, hrest⟩
    have hitems := apart_itemTokens items hclose (by rintro _ ⟨⟩; simp)
    have hopen : Apart (.openArray :: (itemTokens items ++ .closeArray :: rest)) := ⟨nofun, hitems⟩
    simpa [tokens] using hopen
  | .obj members, rest, hrest, _ => by
    have hclose : Apart (.closeObject :: rest) := ⟨nofun, hrest⟩
    have hmembers := apart_memberTokens members hclose (by rintro _ ⟨⟩; simp)
    have hopen : Apart (.openObject :: (memberTokens members ++ .closeObject :: rest)) := ⟨nofun, hmembers⟩
    simpa [tokens] using hopen

theorem apart_itemTokens : ∀ (items : List Json) {rest : List Token}, Apart rest → Closes rest →
    Apart (itemTokens items ++ rest)
  | [], _, hrest, _ => hrest
  | [j], _, hrest, hcloses => apart_tokens j hrest hcloses
  | j :: next :: items, rest, hrest, hcloses => by
    have hnext := apart_itemTokens (next :: items) hrest hcloses
    have hcomma : Apart (.comma :: (itemTokens (next :: items) ++ rest)) := ⟨nofun, hnext⟩
    rw [itemTokens, List.append_assoc]
    exact apart_tokens j hcomma (by rintro _ ⟨⟩; simp)

theorem apart_memberTokens : ∀ (members : List (Option String × Json)) {rest : List Token}, Apart rest → Closes rest →
    Apart (memberTokens members ++ rest)
  | [], _, hrest, _ => hrest
  | [(_, j)], _, hrest, hcloses => ⟨nofun, nofun, apart_tokens j hrest hcloses⟩
  | (name, j) :: next :: members, rest, hrest, hcloses => by
    have hnext := apart_memberTokens (next :: members) hrest hcloses
    have hcomma : Apart (.comma :: (memberTokens (next :: members) ++ rest)) := ⟨nofun, hnext⟩
    have hj := apart_tokens j hcomma (by rintro _ ⟨⟩; simp)
    have hname : Apart (.str name :: .colon :: (j.tokens ++ .comma :: (memberTokens (next :: members) ++ rest))) :=
      ⟨nofun, nofun, hj⟩
    simpa [memberTokens] using hname

end

/-- A text is read as a value just if it spells it. -/
theorem parse?_iff {s : String} {j : Json} : parse? s = some j ↔ j.Spelled s.toList := by
  unfold parse? tokens?
  constructor
  · intro h
    obtain ⟨ts, hts, h⟩ := Option.bind_eq_some_iff.mp h
    rw [ofTokens?_iff] at h
    rw [h] at hts
    exact tokensWithin?_sound hts
  · intro h
    have hapart : Apart j.tokens := by
      have hnone : Apart [] := trivial
      simpa using apart_tokens j hnone nofun
    rw [tokensWithin?_complete h hapart le_rfl]
    exact ofTokens?_iff.mpr rfl

end Bytecode.Json
