import Bytecode.Proofs.Machine.Operands
import Mathlib.Tactic.IntervalCases

/-! The characters of a text as programs see them. The length of a text, the character at a place and the putting together of
    two texts all count characters, however many bytes these take, so that a text is made up of what stands at its places. -/

namespace Bytecode
namespace Text

/-- The length of a text as programs see it. -/
def size (s : String) : Int64 :=
  Int64.ofNat s.length

section
variable {a b : String} {i : Int64}

theorem toInt_size (h : a.length < 2 ^ 63) : (size a).toInt = a.length :=
  Int64.toInt_ofNat_of_lt h

theorem size_append (a b : String) : size (a ++ b) = size a + size b := by
  rw [size, String.length_append, Int64.ofNat_add, size, size]

theorem size_singleton (c : Char) : size (String.singleton c) = 1 := by
  rw [size, String.length_singleton]
  rfl

theorem charAt_of_neg (h : i.toInt < 0) : charAt a i = .error .charOutOfBounds := by
  have hneg : i < 0 := Int64.lt_iff_toInt_lt.mpr h
  rw [charAt, if_pos hneg]

theorem charAt_of_nonneg (h : 0 ≤ i.toInt) :
    charAt a i = (a.toList[i.toInt.toNat]?).elim (.error .charOutOfBounds) (.ok ∘ String.singleton) := by
  have hnonneg : ¬i < 0 := fun hneg => absurd (Int64.lt_iff_toInt_lt.mp hneg) (not_lt.mpr h)
  rw [charAt, if_neg hnonneg]
  cases a.toList[i.toInt.toNat]? <;> rfl

theorem charAt_of_le (h : a.length ≤ i.toInt) : charAt a i = .error .charOutOfBounds := by
  have hnone : a.toList[i.toInt.toNat]? = none := by
    rw [List.getElem?_eq_none_iff, String.length_toList]
    omega
  rw [charAt_of_nonneg (by omega), hnone]
  rfl

/-- Inside a text there is a character at each place. -/
theorem charAt_of_lt (h : 0 ≤ i.toInt) (hlt : i.toInt < a.length) :
    ∃ c, a.toList[i.toInt.toNat]? = some c ∧ charAt a i = .ok (String.singleton c) := by
  have hplace : i.toInt.toNat < a.toList.length := by
    rw [String.length_toList]
    omega
  obtain ⟨c, hc⟩ : ∃ c, a.toList[i.toInt.toNat]? = some c := ⟨_, List.getElem?_eq_getElem hplace⟩
  refine ⟨c, hc, ?_⟩
  rw [charAt_of_nonneg h, hc]
  rfl

theorem charAt_eq_error_iff (ha : a.length < 2 ^ 63) :
    charAt a i = .error .charOutOfBounds ↔ i < 0 ∨ size a ≤ i := by
  rw [Int64.lt_iff_toInt_lt, Int64.le_iff_toInt_le, toInt_size ha, Int64.toInt_zero]
  constructor
  · intro h
    by_contra hinside
    push Not at hinside
    obtain ⟨c, -, hc⟩ := charAt_of_lt hinside.1 hinside.2
    rw [hc] at h
    cases h
  · rintro (hneg | hle)
    · exact charAt_of_neg hneg
    · exact charAt_of_le hle

theorem toInt_sub_size (ha : a.length < 2 ^ 63) (hle : size a ≤ i) : (i - size a).toInt = i.toInt - a.length := by
  rw [Int64.le_iff_toInt_le, toInt_size ha] at hle
  have hlt := i.toInt_lt
  rw [Int64.toInt_sub, toInt_size ha]
  exact Int.bmod_eq_of_le (by omega) (by omega)

theorem charAt_append (ha : a.length < 2 ^ 63) (b : String) (i : Int64) :
    charAt (a ++ b) i = if i < size a then charAt a i else charAt b (i - size a) := by
  split
  · rename_i hlt
    rw [Int64.lt_iff_toInt_lt, toInt_size ha] at hlt
    by_cases hneg : i.toInt < 0
    · rw [charAt_of_neg hneg, charAt_of_neg hneg]
    · have hplace : i.toInt.toNat < a.toList.length := by
        rw [String.length_toList]
        omega
      rw [charAt_of_nonneg (by omega), charAt_of_nonneg (by omega), String.toList_append, List.getElem?_append_left hplace]
  · rename_i hnot
    have hle : size a ≤ i := Int64.not_lt.mp hnot
    have hsub := toInt_sub_size ha hle
    rw [Int64.le_iff_toInt_le, toInt_size ha] at hle
    have hplace : a.toList.length ≤ i.toInt.toNat := by
      rw [String.length_toList]
      omega
    have hoffset : (i - size a).toInt.toNat = i.toInt.toNat - a.toList.length := by
      rw [hsub, String.length_toList]
      omega
    rw [charAt_of_nonneg (by omega), charAt_of_nonneg (by omega), String.toList_append, List.getElem?_append_right hplace,
      hoffset]

end
end Text

namespace Operation
open Text

/-- An operation takes operands, the top first, and leaves a value in their place or fails. It keeps the heap and does not look
at the operands below. -/
def Gives (o : Operation) (take : Operands) (x : Except Fault Value) : Prop :=
  ∀ heap rest, o.apply heap (take ++ rest) = (fun v => (v :: rest, none)) <$> x

theorem textLength_gives (a : String) : Gives .textLength [.str a] (.ok (.int (size a))) :=
  fun _ _ => rfl

theorem charAt_gives (a : String) (i : Int64) : Gives .charAt [.str a, .int i] (.str <$> Bytecode.charAt a i) := by
  intro heap rest
  show (Bytecode.charAt a i >>= fun c => pure (.str c :: rest, none)) = _
  cases Bytecode.charAt a i <;> rfl

theorem concat_gives (a b : String) : Gives .concat [.str b, .str a] (.ok (.str (a ++ b))) :=
  fun _ _ => rfl

/-- Operations one after the other: the operands and the heap behind them. -/
def applyAll (heap : Heap) (stack : Operands) : List Operation → Except Fault (Operands × Heap)
  | [] => .ok (stack, heap)
  | o :: rest => do
    let r ← o.apply heap stack
    applyAll (r.2.elim heap heap.apply) r.1 rest

theorem Gives.applyAll {o : Operation} {take : Operands} {v : Value} (h : Gives o take (.ok v)) (heap : Heap)
    (stack : Operands) (rest : List Operation) :
    Operation.applyAll heap (take ++ stack) (o :: rest) = Operation.applyAll heap (v :: stack) rest := by
  rw [Operation.applyAll, h heap stack]
  rfl

/-- Puts the character at a place of a text behind the text on top of the operands. -/
def appendChar (s : String) (place : Nat) : List Operation :=
  [.push (.int (Int64.ofNat place)), .push (.str s), .charAt, .concat]

/-- Takes a text apart into its characters and puts these together again, from the first one on. -/
def rebuild (s : String) : List Operation :=
  .push (.str "") :: (List.range (size s).toInt.toNat).flatMap (appendChar s)

section
variable {s : String} {heap : Heap} {stack : Operands}

theorem applyAll_appendChar (hs : s.length < 2 ^ 63) {place : Nat} {c : Char} (hc : s.toList[place]? = some c) (t : String)
    (rest : List Operation) :
    applyAll heap (.str t :: stack) (appendChar s place ++ rest) =
      applyAll heap (.str (t ++ String.singleton c) :: stack) rest := by
  obtain ⟨hplace, -⟩ := List.getElem?_eq_some_iff.mp hc
  rw [String.length_toList] at hplace
  have hindex : (Int64.ofNat place).toInt = place := Int64.toInt_ofNat_of_lt (hplace.trans hs)
  have hchar : Bytecode.charAt s (Int64.ofNat place) = .ok (String.singleton c) := by
    rw [charAt_of_nonneg (by omega), hindex, Int.toNat_natCast, hc]
    rfl
  have hgives := charAt_gives s (Int64.ofNat place)
  rw [hchar] at hgives
  calc
    _ = applyAll heap ([.str s, .int (Int64.ofNat place)] ++ .str t :: stack) (.charAt :: .concat :: rest) := rfl
    _ = applyAll heap ([.str (String.singleton c), .str t] ++ stack) (.concat :: rest) := hgives.applyAll _ _ _
    _ = _ := (concat_gives t (String.singleton c)).applyAll _ _ _

theorem applyAll_chars (hs : s.length < 2 ^ 63) {n : Nat} (hn : n ≤ s.length) (rest : List Operation) :
    applyAll heap (.str "" :: stack) ((List.range n).flatMap (appendChar s) ++ rest) =
      applyAll heap (.str (String.ofList (s.toList.take n)) :: stack) rest := by
  induction n generalizing rest with
  | zero => rfl
  | succ n ih =>
    have hlt : n < s.toList.length := by
      rw [String.length_toList]
      omega
    have hchar : s.toList[n]? = some s.toList[n] := List.getElem?_eq_getElem hlt
    rw [List.range_succ, List.flatMap_append, List.append_assoc, List.flatMap_singleton, ih (by omega),
      applyAll_appendChar hs hchar, List.take_add_one, hchar, Option.toList_some, String.ofList_append,
      String.singleton_eq_ofList]

theorem applyAll_rebuild (hs : s.length < 2 ^ 63) : applyAll heap stack (rebuild s) = .ok (.str s :: stack, heap) := by
  have hall : applyAll heap (.str "" :: stack) _ = _ := applyAll_chars hs (Nat.le_refl s.length) []
  have hlength : (size s).toInt.toNat = s.length := by rw [toInt_size hs, Int.toNat_natCast]
  rw [List.append_nil, ← String.length_toList, List.take_length, String.ofList_toList] at hall
  rw [rebuild, hlength, ← String.length_toList]
  exact hall

end

/-- The operations on texts agree on what a character is, however many bytes it takes. A place holds a character exactly if it
is neither negative nor as large as the length, and this character has length one. Putting two texts together adds their
lengths and keeps the characters of the first one at their places and those of the second one behind them. The characters
of a text, put together one after the other, are the text. A text in memory has fewer than 2^63 characters, which is why its
length is an integer that programs can work with. -/
theorem text_operations_count_characters (a b : String) (i : Int64) (ha : a.length < 2 ^ 63) :
    Gives .textLength [.str a] (.ok (.int (size a))) ∧
      Gives .charAt [.str a, .int i] (.str <$> Bytecode.charAt a i) ∧
      Gives .concat [.str b, .str a] (.ok (.str (a ++ b))) ∧
      (Bytecode.charAt a i = .error .charOutOfBounds ↔ i < 0 ∨ size a ≤ i) ∧
      Fault.charOutOfBounds.kind = .outOfBounds ∧
      (¬(i < 0 ∨ size a ≤ i) → ∃ c, Bytecode.charAt a i = .ok c ∧ size c = 1) ∧
      size (a ++ b) = size a + size b ∧
      Bytecode.charAt (a ++ b) i = (if i < size a then Bytecode.charAt a i else Bytecode.charAt b (i - size a)) ∧
      ∀ heap stack, applyAll heap stack (rebuild a) = .ok (.str a :: stack, heap) := by
  refine ⟨textLength_gives a, charAt_gives a i, concat_gives a b, charAt_eq_error_iff ha, rfl, fun hinside => ?_,
    size_append a b, charAt_append ha b i, fun _ _ => applyAll_rebuild ha⟩
  rw [Int64.lt_iff_toInt_lt, Int64.le_iff_toInt_le, toInt_size ha, Int64.toInt_zero] at hinside
  push Not at hinside
  obtain ⟨c, -, hc⟩ := charAt_of_lt hinside.1 hinside.2
  exact ⟨_, hc, size_singleton c⟩

/-- A text with characters of one to four bytes, at the place behind its last character. -/
theorem widening_text_counts_characters :
    "aé€😀".length < 2 ^ 63 ∧ size "aé€😀" = 4 ∧ size ("aé€😀" ++ "é") = 5 ∧
      Bytecode.charAt "aé€😀" 4 = .error .charOutOfBounds ∧ Bytecode.charAt ("aé€😀" ++ "é") 4 = .ok "é" ∧
      applyAll {} [] (rebuild "aé€😀") = .ok ([.str "aé€😀"], {}) := by
  have hlength : "aé€😀".length < 2 ^ 63 := by decide
  obtain ⟨-, -, -, hfault, -, -, hsize, hchar, hall⟩ := text_operations_count_characters "aé€😀" "é" 4 hlength
  refine ⟨hlength, by decide, ?_, hfault.mpr (Or.inr (by decide)), ?_, hall {} []⟩
  · rw [hsize]
    decide
  · rw [hchar, if_neg (by decide)]
    rfl

end Operation
end Bytecode
