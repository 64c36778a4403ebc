import Bytecode.Proofs.Correctness.Does
import Bytecode.Proofs.Lowering.Calls
import Bytecode.Proofs.Lowering.Cases

/-! The code of an expression does what evaluating the expression does: it leaves the value on top of the operands. The
    same for rows of arguments, for the parts of a path, and for setting elements and fields. -/

namespace Bytecode.Correctness
open Evaluation Lowering

/-! ### Calls -/

/-- The values of calls at a place agree with what call instructions do, and so do names that stand for no function. -/
structure Setting.Calls (k : Setting) : Prop where
  call {scope : Scope} {env : Env} {name : String} {g : Tree.Function} {args : List Value}
    (hname : builtinArity? name = none) (hg : function? k.context.program name = some g) (hargs : g.params.length = args.length) :
    Does k scope env [.call name] (k.context.call g args) args.reverse (fun v => [v])
  unknown {name : String} (hname : function? k.context.program name = none) : k.chunk.get? name = none

section
variable {k : Setting} {scope : Scope} {env : Env}

/-- Reading is the only function that every program knows and that works on the input. -/
theorem does_readLine : Does k scope env [.read] (.readLine k.context.function) [] (fun v => [v]) := by
  intro f callers w rest hat hf hstack
  have hmeets : Meets k.chunk k.context.rounds (stateOf w (f :: callers)) _ _ := Meets.readLine hat.head
  rw [hf.name, hstack] at hmeets
  exact hmeets

/-- A function that every program knows, apart from the one that writes, does what its instruction does. -/
theorem does_builtin {name : String} {args : List Value} (harity : builtinArity? name = some args.length)
    (hprint : name ≠ "print") :
    Does k scope env [callInstr name] (builtinValue k.context.function name args) args.reverse (fun v => [v]) := by
  unfold builtinArity? at harity
  split at harity <;> simp only [Option.some.injEq, reduceCtorEq] at harity
  · exact absurd rfl hprint
  · obtain rfl := List.length_eq_zero_iff.mp harity.symm
    exact does_readLine
  · obtain ⟨index, text, rfl⟩ := List.length_eq_two.mp harity.symm
    exact Does.ofExcept fun heap rest => by simp [Operation.apply]
  · obtain ⟨text, rfl⟩ := List.length_eq_one_iff.mp harity.symm
    exact Does.ofExcept fun heap rest => by simp [Operation.apply]
  · obtain ⟨array, rfl⟩ := List.length_eq_one_iff.mp harity.symm
    rw [builtinValue]
    exact Does.compute fun heap rest => by simp [Operation.apply]
  · obtain ⟨v, rfl⟩ := List.length_eq_one_iff.mp harity.symm
    exact Does.ofExcept fun heap rest => by simp [Operation.apply]
  · obtain ⟨v, rfl⟩ := List.length_eq_one_iff.mp harity.symm
    exact Does.ofExcept fun heap rest => by simp [Operation.apply]
  · obtain ⟨v, rfl⟩ := List.length_eq_one_iff.mp harity.symm
    exact Does.ofExcept fun heap rest => by simp [Operation.apply]
  · obtain ⟨left, right, rfl⟩ := List.length_eq_two.mp harity.symm
    exact Does.ofExcept fun heap rest => by simp [Operation.apply]

/-- A call of a name that stands for no function fails, with whatever operands. -/
theorem does_unknown {name : String} {take : Operands} (hget : k.chunk.get? name = none) :
    Does k scope env [.call name] (.ofExcept k.context.function (.error (.unknownFunction name))) take (fun v => [v]) := by
  intro f callers w rest hat hf hstack
  rw [← hf.name]
  refine Meets.fails (u := stateOf w (f :: callers)) hat.head ?_ rfl
  simp only [State.exec, State.call, hget]

theorem does_callValue (hk : k.Calls) {name : String} {args : List Value} (hprint : name ≠ "print")
    (harity : ∀ n, arity? k.context.program name = some n → n = args.length) :
    Does k scope env [callInstr name] (callValue k.context name args) args.reverse (fun v => [v]) := by
  unfold callValue
  cases hbuiltin : builtinArity? name with
  | some n =>
    obtain rfl : n = args.length := harity n (by simp [arity?, hbuiltin])
    rw [if_pos (by simp)]
    exact does_builtin hbuiltin hprint
  | none =>
    rw [if_neg (by simp), callInstr_eq hbuiltin]
    cases hfunction : function? k.context.program name with
    | some g => exact hk.call hbuiltin hfunction (harity _ (by simp [arity?, hbuiltin, hfunction]))
    | none => exact does_unknown (hk.unknown hfunction)

/-! ### Structs, elements and operators -/

theorem does_addFields (v : Value) (fields : List String) :
    Does k scope env (fields.flatMap fun f => [.op .dup, .op (.addField f), .op .dup, .op (.push .null), .op (.setField f)])
      (addFields k.context.function v fields) [v] (fun _ => [v]) := by
  induction fields with
  | nil => exact Does.pure rfl
  | cons field fields ih =>
    have hadd : Does k scope env [.op (.addField field)] (addField k.context.function v field) [v, v] (fun _ => [v]) :=
      Does.compute fun heap rest => by simp [Operation.apply]
    have hset : Does k scope env [.op (.setField field)] (setField k.context.function v field .null) [.null, v, v]
        (fun _ => [v]) :=
      Does.compute fun heap rest => by simp [Operation.apply]
    have hrest : Does k scope env _ (setField k.context.function v field .null >>= fun _ => addFields _ v fields) [v]
        (fun _ => [v]) :=
      Does.dup (Does.push (hset.bind fun _ _ => ih))
    exact Does.dup (hadd.bind fun _ _ => hrest)

theorem does_newStruct (fields : List String) :
    Does k scope env (newStructCode fields)
      (do
        let v ← .compute k.context.function fun heap => .ok (.object heap.nextId, some Heap.newStruct)
        addFields k.context.function v fields
        return v) [] (fun v => [v]) := by
  have hnew : Does k scope env [.op .newStruct]
      (.compute k.context.function fun heap => .ok (.object heap.nextId, some Heap.newStruct)) [] (fun v => [v]) :=
    Does.compute fun heap rest => rfl
  exact hnew.bind fun v _ => (does_addFields v fields).map (g := fun _ => v) fun _ _ => rfl

theorem does_operator (op : Tree.Operator) (left right : Value) :
    Does k scope env [.op (operatorOperation op)] (.ofExcept k.context.function (operatorValue op left right)) [right, left]
      (fun v => [v]) := by
  refine Does.ofExcept fun heap rest => ?_
  cases op
  case eq => rfl
  case ne => rfl
  all_goals simp [Operation.apply, operatorOperation, operatorValue, arithmetic, comparison, connective]

theorem does_getField (v : Value) (field : String) :
    Does k scope env [.op (.getField field)] (getField k.context.function v field) [v] (fun v => [v]) :=
  Does.compute fun heap rest => by simp [Operation.apply]

/-- The values of indices as operands, the last one on top. -/
def indexOperands : Indices → Operands
  | .one index => [index]
  | .two row column => [column, row]

/-- Indices have as many values as their subscript has places. -/
theorem yields_indices {context : Context} {env' : Env} {subscript : Tree.Subscript} {indices : Indices}
    (h : Yields (indicesValues context env' subscript) indices) :
    match subscript with
    | .one _ => ∃ index, indices = .one index
    | .two _ _ => ∃ row column, indices = .two row column := by
  cases subscript with
  | one index =>
    rw [indicesValues] at h
    obtain ⟨v, -, hv⟩ := h.bind
    exact ⟨v, hv.pure.symm⟩
  | two row column =>
    rw [indicesValues] at h
    obtain ⟨v, -, hv⟩ := h.bind
    obtain ⟨v', -, hv'⟩ := hv.bind
    exact ⟨v, v', hv'.pure.symm⟩

theorem does_getElement {context : Context} {env' : Env} {subscript : Tree.Subscript} {indices : Indices}
    (h : Yields (indicesValues context env' subscript) indices) (v : Value) :
    Does k scope env [.op (elementGet subscript)] (getElement k.context.function v indices) (indexOperands indices ++ [v])
      (fun v => [v]) := by
  cases subscript with
  | one e =>
    obtain ⟨index, rfl⟩ := yields_indices h
    rw [getElement]
    exact Does.compute fun heap rest => by simp [Operation.apply, elementGet, indexOperands]
  | two e e' =>
    obtain ⟨row, column, rfl⟩ := yields_indices h
    rw [getElement]
    exact Does.compute fun heap rest => by simp [Operation.apply, elementGet, indexOperands]

theorem does_setElement {context : Context} {env' : Env} {subscript : Tree.Subscript} {indices : Indices}
    (h : Yields (indicesValues context env' subscript) indices) (v x : Value) :
    Does k scope env [.op (elementSet subscript)] (setElement k.context.function v x indices)
      (x :: indexOperands indices ++ [v]) (fun _ => []) := by
  cases subscript with
  | one e =>
    obtain ⟨index, rfl⟩ := yields_indices h
    rw [setElement]
    exact Does.compute fun heap rest => by simp [Operation.apply, elementSet, indexOperands]
  | two e e' =>
    obtain ⟨row, column, rfl⟩ := yields_indices h
    rw [setElement]
    exact Does.compute fun heap rest => by simp [Operation.apply, elementSet, indexOperands]

/-! ### Expressions -/

theorem yields_args {context : Context} {env : Env} {args : List Tree.Expr} {vs : List Value}
    (h : Yields (argsValues context env args) vs) : vs.length = args.length := by
  induction args generalizing vs with
  | nil =>
    rw [argsValues] at h
    rw [← h.pure]
    rfl
  | cons e rest ih =>
    rw [argsValues] at h
    obtain ⟨v, -, hv⟩ := h.bind
    obtain ⟨vs', hvs, hcons⟩ := hv.bind
    rw [← hcons.pure, List.length_cons, ih hvs, List.length_cons]

/-- The code of expressions, rows of arguments, indices, elements and fields, by induction over what can be lowered. -/
theorem exprCases (hk : k.Calls) :
    ExprCases k.context.layouts scope
      (fun e code => exprCalls k.context.program e = true →
        Does k scope env code (exprValue k.context env e) [] (fun v => [v]))
      (fun args code => argsCalls k.context.program args = true →
        Does k scope env code (argsValues k.context env args) [] List.reverse)
      (fun subscript code => subscriptCalls k.context.program subscript = true →
        Does k scope env code (indicesValues k.context env subscript) [] indexOperands)
      (fun segment code => segmentCalls k.context.program segment = true →
        ∀ v, Does k scope env code (elementValue k.context env v segment) [v] (fun v => [v]))
      (fun segments code => segmentsCalls k.context.program segments = true →
        ∀ v, Does k scope env code (fieldsValue k.context env v segments) [v] (fun v => [v])) where
  literal l _ := by
    rw [exprValue]
    exact Does.push (Does.pure rfl)
  path {base rest slot element fields} hslot hbase hrest hcalls := by
    rw [exprCalls, segmentsCalls, Bool.and_eq_true] at hcalls
    rw [exprValue, List.cons_append]
    exact (Does.load hslot).bind fun v _ => (hbase hcalls.1 v).bind fun v' _ => hrest hcalls.2 v'
  call {name args code} hargs hcalls := by
    simp only [exprCalls, Bool.and_eq_true, bne_iff_ne] at hcalls
    obtain ⟨⟨hprint, harity⟩, hargsCalls⟩ := hcalls
    rw [exprValue]
    refine (hargs hargsCalls).bind fun vs hvs => does_callValue hk hprint fun n hn => ?_
    rw [yields_args hvs]
    exact rightArity_eq harity n hn
  array {type length code} hlength hcalls := by
    rw [exprCalls, subscriptCalls] at hcalls
    rw [exprValue]
    refine (hlength hcalls).bind fun v _ => Does.push (Does.compute fun heap rest => ?_)
    simp [Operation.apply]
  grid {type rows columns code code'} hcolumns hrows hcalls := by
    rw [exprCalls, subscriptCalls, Bool.and_eq_true] at hcalls
    rw [exprValue, List.append_assoc]
    -- The columns are evaluated first, so they lie below the rows.
    refine (hcolumns hcalls.2).bind fun v _ => ((hrows hcalls.1).frame [v]).bind fun v' _ => ?_
    refine Does.push (Does.compute fun heap rest => ?_)
    simp [Operation.apply]
  struct {name fields} hfields _ := by
    rw [exprValue, hfields]
    exact does_newStruct fields
  binary {op left right code code'} hleft hright hcalls := by
    rw [exprCalls, Bool.and_eq_true] at hcalls
    rw [exprValue, List.append_assoc]
    exact (hleft hcalls.1).bind fun v _ => ((hright hcalls.2).frame [v]).bind fun v' _ => does_operator op v v'
  not {e code} he hcalls := by
    rw [exprCalls] at hcalls
    rw [exprValue]
    refine (he hcalls).bind fun v _ => Does.ofExcept fun heap rest => ?_
    simp [Operation.apply]
  noArgs _ := by
    rw [argsValues]
    exact Does.pure rfl
  arg {e rest code code'} he hrest hcalls := by
    rw [argsCalls, Bool.and_eq_true] at hcalls
    rw [argsValues]
    refine (he hcalls.1).bind fun v _ => ((hrest hcalls.2).frame [v]).map fun vs _ => ?_
    -- The last argument ends on top.
    rw [List.reverse_cons]
  one {index code} hindex hcalls := by
    rw [subscriptCalls] at hcalls
    rw [indicesValues]
    exact (hindex hcalls).map fun v _ => rfl
  two {row column code code'} hrow hcolumn hcalls := by
    rw [subscriptCalls, Bool.and_eq_true] at hcalls
    rw [indicesValues]
    exact (hrow hcalls.1).bind fun v _ => ((hcolumn hcalls.2).frame [v]).map fun v' _ => rfl
  plain name _ v := by
    rw [elementValue]
    exact Does.pure rfl
  indexed {name subscript code} hindices hcalls v := by
    rw [segmentCalls] at hcalls
    rw [elementValue]
    exact ((hindices hcalls).frame [v]).bind fun indices hyields => does_getElement hyields v
  noFields _ v := by
    rw [fieldsValue]
    exact Does.pure rfl
  field {segment rest element code} hsegment hrest hcalls v := by
    rw [segmentsCalls, Bool.and_eq_true] at hcalls
    rw [fieldsValue, List.cons_append]
    exact (does_getField v segment.name).bind fun v₁ _ =>
      (hsegment hcalls.1 v₁).bind fun v₂ _ => hrest hcalls.2 v₂

theorem does_expr (hk : k.Calls) {e : Tree.Expr} {code : List Instr}
    (hcode : exprCode k.context.layouts scope e = .ok code) (hcalls : exprCalls k.context.program e = true)
    (env : Env) : Does k scope env code (exprValue k.context env e) [] (fun v => [v]) :=
  (exprCases hk).expr hcode hcalls

theorem does_args (hk : k.Calls) {args : List Tree.Expr} {code : List Instr}
    (hcode : argsCode k.context.layouts scope args = .ok code)
    (hcalls : argsCalls k.context.program args = true) (env : Env) :
    Does k scope env code (argsValues k.context env args) [] List.reverse :=
  (exprCases hk).args hcode hcalls

end

end Bytecode.Correctness
