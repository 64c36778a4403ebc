import Bytecode.Proofs.Correctness.Program
import Mathlib.Data.Int.ModEq

/-! Integer expressions as programs see them. An expression whose value is computed from its parts alone (`Computes`) is
    printed by a program as its value says, or the program ends with the fault of the computation. Sums, differences and
    products wrap around at every level, which comes to the same as wrapping the exact number once at the end. -/

namespace Bytecode.Correctness
open Evaluation Lowering

/-! ### Expressions without a surrounding -/

/-- An expression whose value depends on nothing around it: it can be lowered everywhere, calls nothing, and comes out in
the same way in every function and with all variables. -/
structure Computes (e : Tree.Expr) (x : Except Fault Value) : Prop where
  lowers : ∀ layouts scope, ∃ code, exprCode layouts scope e = .ok code
  calls : ∀ p, exprCalls p e = true
  value : ∀ (k : Context) (env : Env), exprValue k env e = Effect.ofExcept k.function x

theorem ofExcept_bind {α β : Type} (function : String) (x : Except Fault α) (y : α → Except Fault β) :
    Effect.ofExcept function (x >>= y) = Effect.ofExcept function x >>= fun a => Effect.ofExcept function (y a) := by
  cases x <;> rfl

namespace Computes

theorem literal (l : Tree.Literal) : Computes (.literal l) (.ok (literalValue l)) where
  lowers layouts scope := ⟨_, by rw [exprCode]⟩
  calls p := by rw [exprCalls]
  value k env := by
    rw [exprValue]
    rfl

theorem binary {op : Tree.Operator} {left right : Tree.Expr} {x y : Except Fault Value} (hleft : Computes left x)
    (hright : Computes right y) :
    Computes (.binary op left right) (do
      let a ← x
      let b ← y
      operatorValue op a b) where
  lowers layouts scope := by
    obtain ⟨code, hcode⟩ := hleft.lowers layouts scope
    obtain ⟨code', hcode'⟩ := hright.lowers layouts scope
    exact ⟨_, by rw [exprCode, hcode, hcode']; rfl⟩
  calls p := by rw [exprCalls, hleft.calls, hright.calls, Bool.and_self]
  value k env := by
    rw [exprValue, hleft.value, hright.value, ofExcept_bind]
    simp only [ofExcept_bind]

end Computes

/-! ### Programs that print -/

/-- The program that prints the value of an expression. -/
def printing (e : Tree.Expr) : Tree.Program where
  functions := [{ name := "main", result := .void, body := [.call "print" [e]] }]

/-- Lowered by a generator and run on a machine, a program ends with a report and with no other one. -/
def EndsWith (g : Generator) (m : Machine) (p : Tree.Program) (report : Report) : Prop :=
  ∃ c, (g.lower p).1 = .ok c ∧ (∃ bound, (m.run? c bound).map runReport = some report) ∧
    ∀ bound r, m.run? c bound = some r → runReport r = report

/-- The report of a program that prints a text and does nothing else. -/
def printed (m : Machine) (text : String) : Report where
  result := .ok ()
  world := { machineWorld m with output := { m.output with written := m.output.written ++ text.toUTF8.data } }

/-- The report of a program that computes a value and prints it, or fails. -/
def printReport (m : Machine) : Except Fault Value → Report
  | .error fault => ⟨.error (fault, some "main"), machineWorld m⟩
  | .ok v => printed m v.text

namespace Computes
variable {e : Tree.Expr} {x : Except Fault Value}

theorem lower_printing (h : Computes e x) (layouts : Layouts) :
    ∃ c, lowerFunctions layouts {} (printing e).functions = .ok c := by
  obtain ⟨code, hcode⟩ := h.lowers layouts (paramScope [])
  obtain ⟨body, hbody⟩ : ∃ body, stmtsCode layouts (paramScope []) 0 [.call "print" [e]] = .ok body := by
    simp [stmtsCode, stmtCode, callCode, argsCode, hcode, bind, Except.bind, pure, Except.pure]
  have hget : Chunk.get? {} "main" = none := rfl
  simp [printing, lowerFunctions, lowerFunction, functionCode, hbody, hget, bind, Except.bind, pure, Except.pure]

theorem wellCalled (h : Computes e x) : WellCalled (printing e) := by
  intro f hf
  obtain rfl := List.mem_singleton.mp hf
  simp [stmtsCalls, stmtCalls, argsCalls, h.calls, rightArity, arity?, builtinArity?]

/-- Evaluation of a program that prints, within any bound that allows the call of its function. -/
theorem report_runProgram (h : Computes e x) (layouts : Layouts) {m : Machine} (hroom : m.output.room = none)
    (hflush : ∀ bytes, Output.flush { m.output with written := bytes } = .ok ()) (bound : Nat) :
    evaluationReport? (runProgram layouts (printing e) (bound + 1) (machineWorld m)) = some (printReport m x) := by
  have hmain : (function? (printing e) "main").filter (fun f => f.params.isEmpty) =
      some { name := "main", result := .void, body := [.call "print" [e]] } := rfl
  unfold runProgram
  rw [hmain]
  simp only [functionValue, List.length_nil, if_true, stmtsFlow, stmtFlow, argsValues, h.value]
  cases x with
  | error fault => rfl
  | ok v =>
    have hvalue : Effect.ofExcept "main" (.ok v) = (pure v : Effect Value) := rfl
    have hwrite : m.output.write v.text = (.ok (), { m.output with written := m.output.written ++ v.text.toUTF8.data }) := by
      simp [Output.write, Output.writeBytes, hroom]
    have hend := hflush (m.output.written ++ v.text.toUTF8.data)
    simp only [hvalue, pure_bind, bind_assoc, callAlone, if_true, Flow.andThen]
    show evaluationReport? (Effect.bind (Effect.write "main" v) (fun _ => Effect.flush) (machineWorld m)) = _
    simp only [Effect.bind, Effect.write, Effect.flush, machineWorld, hwrite, hend]
    rfl

/-- A program that prints ends as the computation of its value does. -/
theorem endsWith_printing (h : Computes e x) (g : Generator) {m : Machine} (hroom : m.output.room = none)
    (hflush : ∀ bytes, Output.flush { m.output with written := bytes } = .ok ()) :
    EndsWith g m (printing e) (printReport m x) := by
  obtain ⟨c, hlower⟩ := h.lower_printing (g.layouts.register (printing e).structs)
  have hmeets : ∀ bound, RunMeets c m bound (runProgram _ (printing e) (bound + 1) (machineWorld m)) := fun bound =>
    runMeets_runProgram hlower h.wellCalled m (bound + 1)
  have hreport := h.report_runProgram (g.layouts.register (printing e).structs) hroom hflush
  refine ⟨c, hlower, (hmeets 0).run (hreport 0), fun bound r hr => ?_⟩
  -- Evaluation comes out alike within every bound, so a run is compared with evaluation within the bound of the run.
  have hsame := (hmeets bound).report hr (Nat.le_refl _)
  rw [hreport bound] at hsame
  exact (Option.some.inj hsame).symm

end Computes

/-! ### Wrapped numbers -/

/-- The number in the range of 64-bit integers that differs from a number by a multiple of `2 ^ 64`. -/
structure Wraps (v n : Int) : Prop where
  ge : -2 ^ 63 ≤ n
  lt : n < 2 ^ 63
  congr : n ≡ v [ZMOD 2 ^ 64]

theorem wraps_iff {v n : Int} : Wraps v n ↔ n = (Int64.ofInt v).toInt := by
  constructor
  · rintro ⟨hge, hlt, hcongr⟩
    have hbmod : v.bmod Int64.size = n := by
      refine (Int.bmod_eq_iff (by decide)).mpr ⟨?_, ?_, hcongr.symm.dvd⟩
      · simpa [Int64.size] using hge
      · simpa [Int64.size] using hlt
    rw [Int64.toInt_ofInt, hbmod]
  · rintro rfl
    refine ⟨Int64.le_toInt _, Int64.toInt_lt _, ?_⟩
    rw [Int64.toInt_ofInt]
    exact Int.bmod_emod

/-- The operators under which wrapping once is enough. -/
inductive RingOperator where
  | add
  | sub
  | mul

namespace RingOperator

def operator : RingOperator → Tree.Operator
  | .add => .add
  | .sub => .sub
  | .mul => .mul

def exact : RingOperator → Int → Int → Int
  | .add => (· + ·)
  | .sub => (· - ·)
  | .mul => (· * ·)

/-- An operator on wrapped numbers gives the wrapped exact number. -/
theorem operatorValue_eq (op : RingOperator) (a b : Int) :
    operatorValue op.operator (.int (Int64.ofInt a)) (.int (Int64.ofInt b)) = .ok (.int (Int64.ofInt (op.exact a b))) := by
  cases op
  · show Except.ok (Value.int (_ + _)) = _
    rw [← Int64.ofInt_add]
    rfl
  · show Except.ok (Value.int (_ - _)) = _
    rw [← Int64.ofInt_sub]
    rfl
  · show Except.ok (Value.int (_ * _)) = _
    rw [← Int64.ofInt_mul]
    rfl

end RingOperator

/-- An expression of integer literals with sums, differences and products. -/
inductive RingExpr where
  | literal (n : Int64)
  | binary (op : RingOperator) (left right : RingExpr)

namespace RingExpr

def tree : RingExpr → Tree.Expr
  | .literal n => .literal (.int n)
  | .binary op left right => .binary op.operator left.tree right.tree

/-- The exact value, of any size. -/
def value : RingExpr → Int
  | .literal n => n.toInt
  | .binary op left right => op.exact left.value right.value

/-- However many parts wrap around, the value is the wrapped exact value. -/
theorem computes (e : RingExpr) : Computes e.tree (.ok (.int (Int64.ofInt e.value))) := by
  induction e with
  | literal n =>
    rw [value, Int64.ofInt_toInt]
    exact .literal (.int n)
  | binary op left right hleft hright =>
    rw [value, ← op.operatorValue_eq]
    exact hleft.binary hright

end RingExpr

/-! ### Quotients -/

/-- The quotient goes toward zero; the only one that is out of range goes around. -/
theorem toInt_quotient (a b : Int64) :
    (a / b).toInt = if a.toInt = -2 ^ 63 ∧ b.toInt = -1 then -2 ^ 63 else a.toInt.tdiv b.toInt := by
  have hleast : a.toInt = -2 ^ 63 ↔ a = Int64.minValue := by rw [← Int64.toInt_inj, Int64.toInt_minValue]
  have hone : b.toInt = -1 ↔ b = -1 := by
    rw [← Int64.toInt_inj]
    rfl
  by_cases ha : a = Int64.minValue
  · by_cases hb : b = -1
    · rw [if_pos ⟨hleast.mpr ha, hone.mpr hb⟩, ha, hb]
      decide
    · rw [if_neg fun h => hb (hone.mp h.2), Int64.toInt_div_of_ne_right a b hb]
  · rw [if_neg fun h => ha (hleast.mp h.1), Int64.toInt_div_of_ne_left a b ha]

theorem computes_quotient (a b : RingExpr) :
    Computes (.binary .div a.tree b.tree)
      (if Int64.ofInt b.value = 0 then .error .divisionByZero
        else .ok (.int (Int64.ofInt a.value / Int64.ofInt b.value))) :=
  a.computes.binary b.computes

section
variable {g : Generator} {m : Machine} {p : Tree.Program}

theorem EndsWith.eq {report report' : Report} (h : EndsWith g m p report) (h' : EndsWith g m p report') : report = report' := by
  obtain ⟨c, hlower, ⟨bound, hrun⟩, -⟩ := h
  obtain ⟨c', hlower', -, hevery⟩ := h'
  obtain rfl : c = c' := Except.ok.inj (hlower.symm.trans hlower')
  obtain ⟨r, hr, rfl⟩ := Option.map_eq_some_iff.mp hrun
  exact hevery bound r hr

end

/-- A program that prints an expression of integer literals, sums, differences and products ends without a fault and prints
the one number in range that is congruent to the exact value. A program that prints a quotient of two such expressions
ends with a division by zero exactly if the divisor wraps to zero, and prints the quotient of the wrapped numbers toward
zero otherwise; the least number divided by -1 is itself. -/
theorem printed_integers_are_exact_modulo (g : Generator) (m : Machine) (hroom : m.output.room = none)
    (hflush : ∀ bytes, Output.flush { m.output with written := bytes } = .ok ()) :
    (∀ e : RingExpr, ∃ n, Wraps e.value n ∧ (∀ n', Wraps e.value n' → n' = n) ∧
      EndsWith g m (printing e.tree) (printed m (toString n))) ∧
    ∀ (a b : RingExpr) (x y : Int), Wraps a.value x → Wraps b.value y →
      ((∃ function world, EndsWith g m (printing (.binary .div a.tree b.tree))
          ⟨.error (.divisionByZero, function), world⟩) ↔ y = 0) ∧
      (y ≠ 0 → EndsWith g m (printing (.binary .div a.tree b.tree))
        (printed m (toString (if x = -2 ^ 63 ∧ y = -1 then -2 ^ 63 else x.tdiv y)))) := by
  refine ⟨fun e => ?_, fun a b x y hx hy => ?_⟩
  · exact ⟨_, wraps_iff.mpr rfl, fun n' => wraps_iff.mp, e.computes.endsWith_printing g hroom hflush⟩
  · obtain rfl := wraps_iff.mp hx
    obtain rfl := wraps_iff.mp hy
    have hzero : (Int64.ofInt b.value).toInt = 0 ↔ Int64.ofInt b.value = 0 := by rw [← Int64.toInt_inj, Int64.toInt_zero]
    have hends := (computes_quotient a b).endsWith_printing g hroom hflush
    rw [← toInt_quotient, ne_eq, hzero]
    by_cases hb : Int64.ofInt b.value = 0
    · rw [if_pos hb] at hends
      exact ⟨⟨fun _ => hb, fun _ => ⟨_, _, hends⟩⟩, fun hne => absurd hb hne⟩
    · rw [if_neg hb] at hends
      refine ⟨⟨?_, fun h => absurd h hb⟩, fun _ => hends⟩
      rintro ⟨function, world, hfault⟩
      cases congrArg Report.result (hfault.eq hends)

/-- The greatest number, doubled and multiplied by itself, wraps twice on the way. -/
def wrappedTwice : RingExpr :=
  .binary .mul (.binary .add (.literal Int64.maxValue) (.literal Int64.maxValue)) (.literal Int64.maxValue)

theorem wrapped_numbers_are_printed :
    Wraps wrappedTwice.value 2 ∧ EndsWith {} {} (printing wrappedTwice.tree) (printed {} "2") ∧
      EndsWith {} {} (printing (.binary .div (.literal (.int Int64.minValue)) (.literal (.int (-1)))))
        (printed {} "-9223372036854775808") := by
  obtain ⟨hexact, hquotient⟩ := printed_integers_are_exact_modulo {} {} rfl fun _ => rfl
  have htwo : Wraps wrappedTwice.value 2 := ⟨by decide, by decide, by decide⟩
  obtain ⟨n, -, hunique, hends⟩ := hexact wrappedTwice
  obtain rfl := hunique 2 htwo
  have hleast : Wraps (RingExpr.literal Int64.minValue).value (-2 ^ 63) := ⟨by decide, by decide, rfl⟩
  have hone : Wraps (RingExpr.literal (-1)).value (-1) := ⟨by decide, by decide, rfl⟩
  exact ⟨htwo, hends, (hquotient _ _ _ _ hleast hone).2 (by decide)⟩

end Bytecode.Correctness
