import Mathlib.Data.List.Basic

/-! Rows that stand at an index inside a longer row, such as the code of a statement inside the code of a function. -/

namespace Bytecode.Lowering

/-- A row stands at an index inside a longer row. -/
def Placed {α : Type} (whole : List α) : Nat → List α → Prop
  | _, [] => True
  | start, x :: rest => whole[start]? = some x ∧ Placed whole (start + 1) rest

namespace Placed
variable {α : Type} {whole : List α} {start : Nat} {x : α} {part part' : List α}

@[simp] theorem nil (whole : List α) (start : Nat) : Placed whole start [] := trivial

theorem cons_iff : Placed whole start (x :: part) ↔ whole[start]? = some x ∧ Placed whole (start + 1) part := Iff.rfl

theorem append_iff :
    Placed whole start (part ++ part') ↔ Placed whole start part ∧ Placed whole (start + part.length) part' := by
  induction part generalizing start with
  | nil => simp
  | cons x part ih =>
    simp only [List.cons_append, cons_iff, ih, List.length_cons, and_assoc]
    rw [show start + 1 + part.length = start + (part.length + 1) by omega]

theorem head (h : Placed whole start (x :: part)) : whole[start]? = some x := h.1

theorem tail (h : Placed whole start (x :: part)) : Placed whole (start + 1) part := h.2

theorem left (h : Placed whole start (part ++ part')) : Placed whole start part := (append_iff.mp h).1

theorem right (h : Placed whole start (part ++ part')) : Placed whole (start + part.length) part' :=
  (append_iff.mp h).2

/-- The parts of a row with an entry between its first two parts and another one behind them. -/
theorem around {y : α} {rest : List α} (h : Placed whole start (part ++ x :: part' ++ y :: rest)) :
    Placed whole start (part ++ [x]) ∧ Placed whole (start + part.length + 1) part' ∧
      whole[start + part.length + 1 + part'.length]? = some y ∧
      Placed whole (start + part.length + part'.length + 2) rest := by
  have hfirst := h.left
  have hsecond := h.right
  rw [List.length_append, List.length_cons,
    show start + (part.length + (part'.length + 1)) = start + part.length + 1 + part'.length by omega] at hsecond
  refine ⟨append_iff.mpr ⟨hfirst.left, hfirst.right.head, trivial⟩, hfirst.right.tail, hsecond.head, ?_⟩
  rw [show start + part.length + part'.length + 2 = start + part.length + 1 + part'.length + 1 by omega]
  exact hsecond.tail

theorem get (h : Placed whole start part) {i : Nat} (hi : part[i]? = some x) : whole[start + i]? = some x := by
  induction part generalizing start i with
  | nil => simp at hi
  | cons y part ih =>
    cases i with
    | zero =>
      simp only [List.getElem?_cons_zero, Option.some.injEq] at hi
      exact hi ▸ h.head
    | succ i =>
      rw [show start + (i + 1) = start + 1 + i by omega]
      exact ih h.tail (by simpa using hi)

/-- A row stands inside itself, between whatever comes before and behind it. -/
theorem middle (before part behind : List α) : Placed (before ++ part ++ behind) before.length part := by
  induction part generalizing before with
  | nil => trivial
  | cons x part ih =>
    refine ⟨by simp, ?_⟩
    have h := ih (before ++ [x])
    simpa using h

end Placed
end Bytecode.Lowering
