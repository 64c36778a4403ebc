import Bytecode.Text.Escape

/-! Escapes in one pass. Resolving one kind of escape after the other is the same as resolving all kinds in one pass from left
    to right, because what an escape stands for is neither a backslash nor a letter that is still to be resolved
    (`resolve_resolve`). -/

namespace Bytecode.Text

/-- What a backslash stands for together with the letter behind it. -/
def escape? : Char → Option Char
  | 'n' => some '\n'
  | 't' => some '\t'
  | '\'' => some '\''
  | _ => none

/-- Goes through a literal once. A backslash and a letter that have a meaning together are replaced by it, and the pass goes on
behind both; every other character is copied. -/
def resolve (meaning : Char → Option Char) : List Char → List Char
  | [] => []
  | [c] => [c]
  | c :: d :: rest =>
    match if c = '\\' then meaning d else none with
    | some e => e :: resolve meaning rest
    | none => c :: resolve meaning (d :: rest)

section
variable {meaning later : Char → Option Char} {c d e : Char} {rest : List Char}

theorem resolve_escape (h : meaning d = some e) : resolve meaning ('\\' :: d :: rest) = e :: resolve meaning rest := by
  rw [resolve, if_pos rfl, h]

theorem resolve_cons_of_ne (h : c ≠ '\\') : resolve meaning (c :: rest) = c :: resolve meaning rest := by
  cases rest with
  | nil => rfl
  | cons d rest => rw [resolve, if_neg h]

/-- A character is copied if no letter with a meaning follows it. -/
theorem resolve_cons_of_head (h : ∀ d, rest.head? = some d → meaning d = none) :
    resolve meaning (c :: rest) = c :: resolve meaning rest := by
  cases rest with
  | nil => rfl
  | cons d rest => rw [resolve, h d rfl, ite_self]

/-- A literal starts with its own first character or with a meaning. -/
theorem head?_resolve (h : (resolve meaning (d :: rest)).head? = some e) : e = d ∨ ∃ letter, meaning letter = some e := by
  cases rest with
  | nil => exact Or.inl (Option.some.inj h).symm
  | cons c rest =>
    rw [resolve] at h
    split at h
    · rename_i meant hmeant
      obtain rfl : meant = e := Option.some.inj h
      split at hmeant
      · exact Or.inr ⟨c, hmeant⟩
      · cases hmeant
    · exact Or.inl (Option.some.inj h).symm

/-- Two passes are one. What the first pass makes must be of no use to the second one. -/
theorem resolve_resolve (hback : later '\\' = none) (hmade : ∀ d e, meaning d = some e → e ≠ '\\' ∧ later e = none)
    (cs : List Char) : resolve later (resolve meaning cs) = resolve (fun d => (meaning d).or (later d)) cs := by
  induction cs using resolve.induct meaning with
  | case1 => rfl
  | case2 c => rfl
  | case3 c d rest e hescape ih =>
    -- An escape of the first pass.
    split at hescape
    · rename_i hc
      subst hc
      rw [resolve_escape hescape, resolve_cons_of_ne (hmade d e hescape).1, ih, resolve_escape (by rw [hescape, Option.or])]
    · cases hescape
  | case4 c d rest hnone ih =>
    by_cases hc : c = '\\'
    · subst hc
      rw [if_pos rfl] at hnone
      have hfirst : resolve meaning ('\\' :: d :: rest) = '\\' :: resolve meaning (d :: rest) := by
        rw [resolve, if_pos rfl, hnone]
      cases hlater : later d with
      | some e =>
        -- An escape of the second pass, which the first one has left as it was.
        have hd : d ≠ '\\' := by
          rintro rfl
          rw [hback] at hlater
          cases hlater
        rw [resolve_cons_of_ne hd, resolve_cons_of_ne hd, resolve_cons_of_ne hd] at ih
        rw [hfirst, resolve_cons_of_ne hd, resolve_escape hlater, List.tail_eq_of_cons_eq ih,
          resolve_escape (by rw [hnone, hlater, Option.or])]
      | none =>
        have hhead : ∀ e, (resolve meaning (d :: rest)).head? = some e → later e = none := by
          intro e he
          rcases head?_resolve he with rfl | ⟨letter, hletter⟩
          · exact hlater
          · exact (hmade letter e hletter).2
        have hnext : ∀ e, (d :: rest).head? = some e → (meaning e).or (later e) = none := by
          rintro e he
          obtain rfl : d = e := Option.some.inj he
          rw [hnone, hlater, Option.or]
        rw [hfirst, resolve_cons_of_head hhead, ih, resolve_cons_of_head hnext]
    · rw [resolve_cons_of_ne hc, resolve_cons_of_ne hc, ih, resolve_cons_of_ne hc]

end

/-- The meaning of a single letter. -/
def only (letter replacement : Char) : Char → Option Char :=
  fun d => if d = letter then some replacement else none

theorem replaceEscape_eq_resolve (letter replacement : Char) (cs : List Char) :
    replaceEscape letter replacement cs = resolve (only letter replacement) cs := by
  fun_induction replaceEscape letter replacement cs with
  | case1 => rfl
  | case2 c => rfl
  | case3 c d rest h ih =>
    obtain ⟨rfl, rfl⟩ := h
    rw [resolve_escape (if_pos rfl), ih]
  | case4 c d rest h ih =>
    rw [ih, resolve]
    by_cases hc : c = '\\'
    · rw [if_pos hc, only, if_neg fun hd => h ⟨hc, hd⟩]
    · rw [if_neg hc]

theorem escape?_eq : (fun d => ((only 'n' '\n' d).or (only 't' '\t' d)).or (only '\'' '\'' d)) = escape? := by
  funext d
  unfold escape?
  split
  · rfl
  · rfl
  · rfl
  · rename_i hn ht hquote
    rw [only, if_neg hn, only, if_neg ht, only, if_neg hquote]
    rfl

theorem unescapeChars_eq_resolve (cs : List Char) : unescapeChars cs = resolve escape? cs := by
  have hmade : ∀ d e, only 'n' '\n' d = some e → e ≠ '\\' ∧ only 't' '\t' e = none := by
    intro d e h
    unfold only at h
    split at h <;> cases h
    decide
  have hmade' : ∀ d e, (only 'n' '\n' d).or (only 't' '\t' d) = some e → e ≠ '\\' ∧ only '\'' '\'' e = none := by
    intro d e h
    unfold only at h
    split at h
    · cases h
      decide
    · split at h <;> cases h
      decide
  rw [unescapeChars, replaceEscape_eq_resolve, replaceEscape_eq_resolve, replaceEscape_eq_resolve,
    resolve_resolve (by decide) hmade, resolve_resolve (by decide) hmade', escape?_eq]

/-! ### Where escapes come from -/

/-- A character, and whether it has been put in the place of an escape. -/
structure Marked where
  char : Char
  made : Bool := false

/-- Replaces as `replaceEscape` does, but takes no part of an escape from what has been made by a replacement. -/
def replaceSpelled (letter replacement : Char) : List Marked → List Marked
  | [] => []
  | [c] => [c]
  | c :: d :: rest =>
    if (c.char = '\\' ∧ c.made = false) ∧ d.char = letter ∧ d.made = false then
      ⟨replacement, true⟩ :: replaceSpelled letter replacement rest
    else c :: replaceSpelled letter replacement (d :: rest)

/-- Resolves the escapes of a literal, each of which is as it was spelled. -/
def unescapeSpelled (cs : List Char) : List Marked :=
  replaceSpelled '\'' '\'' (replaceSpelled 't' '\t' (replaceSpelled 'n' '\n' (cs.map fun c => { char := c })))

/-- Marks do not matter as long as no backslash and no letter of an escape has been made. -/
theorem chars_replaceSpelled {letter replacement : Char} {cs : List Marked}
    (h : ∀ c ∈ cs, c.made = true → c.char ≠ '\\' ∧ c.char ≠ letter) :
    (replaceSpelled letter replacement cs).map Marked.char = replaceEscape letter replacement (cs.map Marked.char) := by
  fun_induction replaceSpelled letter replacement cs with
  | case1 => rfl
  | case2 c => rfl
  | case3 c d rest hescape ih =>
    rw [List.map_cons, ih fun x hx => h x (by simp [hx])]
    exact (if_pos ⟨hescape.1.1, hescape.2.1⟩).symm
  | case4 c d rest hplain ih =>
    have hneg : ¬(c.char = '\\' ∧ d.char = letter) := by
      rintro ⟨hc, hd⟩
      refine hplain ⟨⟨hc, ?_⟩, hd, ?_⟩ <;> rw [Bool.eq_false_iff]
      · exact fun hmade => (h c (by simp) hmade).1 hc
      · exact fun hmade => (h d (by simp) hmade).2 hd
    rw [List.map_cons, ih fun x hx => h x (List.mem_cons_of_mem c hx)]
    exact (if_neg hneg).symm

theorem mem_replaceSpelled {letter replacement : Char} {cs : List Marked} {c : Marked}
    (h : c ∈ replaceSpelled letter replacement cs) : c ∈ cs ∨ c = ⟨replacement, true⟩ := by
  fun_induction replaceSpelled letter replacement cs with
  | case1 => exact Or.inl h
  | case2 => exact Or.inl h
  | case3 _ _ rest _ ih =>
    rcases List.mem_cons.mp h with rfl | h
    · exact Or.inr rfl
    · exact (ih h).imp_left fun hc => by simp [hc]
  | case4 _ _ rest _ ih =>
    rcases List.mem_cons.mp h with rfl | h
    · exact Or.inl (by simp)
    · exact (ih h).imp_left (List.mem_cons_of_mem _)

theorem chars_unescapeSpelled (cs : List Char) : (unescapeSpelled cs).map Marked.char = unescapeChars cs := by
  have hchars : (cs.map fun c => ({ char := c } : Marked)).map Marked.char = cs := by
    rw [List.map_map]
    exact List.map_id cs
  have hspelled : ∀ c ∈ cs.map fun c => ({ char := c } : Marked), c.made = false := by simp
  -- What a replacement makes is no part of a later pattern, so it does not matter that it is skipped.
  have hfirst : ∀ c ∈ replaceSpelled 'n' '\n' (cs.map fun c => { char := c }), c.made = true → c.char = '\n' := by
    intro c hc hmade
    rcases mem_replaceSpelled hc with hc | rfl
    · rw [hspelled c hc] at hmade
      cases hmade
    · rfl
  have hsecond : ∀ c ∈ replaceSpelled 't' '\t' (replaceSpelled 'n' '\n' (cs.map fun c => { char := c })),
      c.made = true → c.char = '\n' ∨ c.char = '\t' := by
    intro c hc hmade
    rcases mem_replaceSpelled hc with hc | rfl
    · exact Or.inl (hfirst c hc hmade)
    · exact Or.inr rfl
  rw [unescapeSpelled, unescapeChars, chars_replaceSpelled, chars_replaceSpelled, chars_replaceSpelled, hchars]
  · intro c hc hmade
    rw [hspelled c hc] at hmade
    cases hmade
  · intro c hc hmade
    rw [hfirst c hc hmade]
    decide
  · intro c hc hmade
    rcases hsecond c hc hmade with h | h <;> rw [h] <;> decide

/-- Escapes are resolved in a single pass. The three replacements, each made over the whole text, come to one pass from left to
right, and they come to the same if a replacement may not take anything that one of them has made for a part of an escape. -/
theorem unescape_is_single_pass (s : String) :
    unescape s = String.ofList (resolve escape? s.toList) ∧
      unescape s = String.ofList ((unescapeSpelled s.toList).map Marked.char) := by
  rw [chars_unescapeSpelled, ← unescapeChars_eq_resolve]
  exact ⟨rfl, rfl⟩

/-- The backslash that is left in front of a line feed or of an apostrophe starts no escape. -/
example : unescape "\\\\n\\\\'n\\" = "\\\n\\'n\\" := by decide

end Bytecode.Text
