import Bytecode.Lowering
import Bytecode.Proofs.Machine.Operands

/-! Induction over what can be lowered. To show something of all lowered expressions or statements it is enough to show
    it of each form, given that it holds of the parts; where a part cannot be lowered, nothing has to be shown. -/

namespace Bytecode.Lowering

theorem Scope.slot_eq_ok_iff {scope : Scope} {name : String} {slot : Nat} :
    scope.slot name = .ok slot ↔ scope.find? name = some slot := by
  unfold Scope.slot
  cases scope.find? name <;> simp

theorem Layouts.fields_eq_ok_iff {layouts : Layouts} {name : String} {fields : List String} :
    layouts.fields name = .ok fields ↔ layouts.get? name = some fields := by
  unfold Layouts.fields
  cases layouts.get? name <;> simp

/-! ### Expressions -/

/-- The cases of an induction over lowered expressions `E`, rows of arguments `A`, the indices of subscripts `I`, the
elements of segments `L` and rows of fields `F`. -/
structure ExprCases (layouts : Layouts) (scope : Scope) (E : Tree.Expr → List Instr → Prop)
    (A : List Tree.Expr → List Instr → Prop) (I : Tree.Subscript → List Instr → Prop)
    (L : Tree.Segment → List Instr → Prop) (F : List Tree.Segment → List Instr → Prop) : Prop where
  literal (l : Tree.Literal) : E (.literal l) [.op (.push (literalValue l))]
  path {base : Tree.Segment} {rest : List Tree.Segment} {slot : Nat} {element fields : List Instr}
    (hslot : scope.find? base.name = some slot) (hbase : L base element) (hrest : F rest fields) :
    E (.path (base :: rest)) (.load slot :: element ++ fields)
  call {name : String} {args : List Tree.Expr} {code : List Instr} (hargs : A args code) :
    E (.call name args) (code ++ [callInstr name])
  array {type : String} {length : Tree.Expr} {code : List Instr} (hlength : E length code) :
    E (.newArray type (.one length)) (code ++ [.op (.push .null), .op .newArray])
  grid {type : String} {rows columns : Tree.Expr} {code code' : List Instr} (hcolumns : E columns code)
    (hrows : E rows code') :
    E (.newArray type (.two rows columns)) (code ++ code' ++ [.op (.push .null), .op .newGrid])
  struct {name : String} {fields : List String} (hfields : layouts.get? name = some fields) :
    E (.newStruct name) (newStructCode fields)
  binary {op : Tree.Operator} {left right : Tree.Expr} {code code' : List Instr} (hleft : E left code)
    (hright : E right code') : E (.binary op left right) (code ++ code' ++ [.op (operatorOperation op)])
  not {e : Tree.Expr} {code : List Instr} (he : E e code) : E (.not e) (code ++ [.op .not])
  noArgs : A [] []
  arg {e : Tree.Expr} {rest : List Tree.Expr} {code code' : List Instr} (he : E e code) (hrest : A rest code') :
    A (e :: rest) (code ++ code')
  one {index : Tree.Expr} {code : List Instr} (hindex : E index code) : I (.one index) code
  two {row column : Tree.Expr} {code code' : List Instr} (hrow : E row code) (hcolumn : E column code') :
    I (.two row column) (code ++ code')
  plain (name : String) : L (.plain name) []
  indexed {name : String} {subscript : Tree.Subscript} {code : List Instr} (hindices : I subscript code) :
    L (.indexed name subscript) (code ++ [.op (elementGet subscript)])
  noFields : F [] []
  field {segment : Tree.Segment} {rest : List Tree.Segment} {element code : List Instr} (hsegment : L segment element)
    (hrest : F rest code) : F (segment :: rest) (.op (.getField segment.name) :: element ++ code)

namespace ExprCases
variable {layouts : Layouts} {scope : Scope} {E : Tree.Expr → List Instr → Prop}
  {A : List Tree.Expr → List Instr → Prop} {I : Tree.Subscript → List Instr → Prop}
  {L : Tree.Segment → List Instr → Prop} {F : List Tree.Segment → List Instr → Prop}

mutual

theorem expr (h : ExprCases layouts scope E A I L F) :
    ∀ {e : Tree.Expr} {code : List Instr}, exprCode layouts scope e = .ok code → E e code
  | .literal l, code, hc => by
    simp only [exprCode, Except.ok.injEq] at hc
    subst hc
    exact h.literal l
  | .path [], code, hc => by simp [exprCode] at hc
  | .path (base :: rest), code, hc => by
    simp only [exprCode, Except.bind_eq_ok_iff, Except.pure_eq_ok_iff, Scope.slot_eq_ok_iff] at hc
    obtain ⟨slot, hslot, element, helement, fields, hfields, rfl⟩ := hc
    exact h.path hslot (h.element helement) (h.fields hfields)
  | .call name args, code, hc => by
    simp only [exprCode, Except.bind_eq_ok_iff, Except.pure_eq_ok_iff] at hc
    obtain ⟨code, hargs, rfl⟩ := hc
    exact h.call (h.args hargs)
  | .newArray type (.one length), code, hc => by
    simp only [exprCode, Except.bind_eq_ok_iff, Except.pure_eq_ok_iff] at hc
    obtain ⟨code, hlength, rfl⟩ := hc
    exact h.array (h.expr hlength)
  | .newArray type (.two rows columns), code, hc => by
    simp only [exprCode, Except.bind_eq_ok_iff, Except.pure_eq_ok_iff] at hc
    obtain ⟨code, hcolumns, code', hrows, rfl⟩ := hc
    exact h.grid (h.expr hcolumns) (h.expr hrows)
  | .newStruct name, code, hc => by
    simp only [exprCode, Except.bind_eq_ok_iff, Except.pure_eq_ok_iff, Layouts.fields_eq_ok_iff] at hc
    obtain ⟨fields, hfields, rfl⟩ := hc
    exact h.struct hfields
  | .binary op left right, code, hc => by
    simp only [exprCode, Except.bind_eq_ok_iff, Except.pure_eq_ok_iff] at hc
    obtain ⟨code, hleft, code', hright, rfl⟩ := hc
    exact h.binary (h.expr hleft) (h.expr hright)
  | .not e, code, hc => by
    simp only [exprCode, Except.bind_eq_ok_iff, Except.pure_eq_ok_iff] at hc
    obtain ⟨code, he, rfl⟩ := hc
    exact h.not (h.expr he)

theorem args (h : ExprCases layouts scope E A I L F) :
    ∀ {args : List Tree.Expr} {code : List Instr}, argsCode layouts scope args = .ok code → A args code
  | [], code, hc => by
    simp only [argsCode, Except.ok.injEq] at hc
    subst hc
    exact h.noArgs
  | e :: rest, code, hc => by
    simp only [argsCode, Except.bind_eq_ok_iff, Except.pure_eq_ok_iff] at hc
    obtain ⟨code, he, code', hrest, rfl⟩ := hc
    exact h.arg (h.expr he) (h.args hrest)

theorem indices (h : ExprCases layouts scope E A I L F) :
    ∀ {subscript : Tree.Subscript} {code : List Instr}, indicesCode layouts scope subscript = .ok code →
      I subscript code
  | .one index, code, hc => by
    simp only [indicesCode] at hc
    exact h.one (h.expr hc)
  | .two row column, code, hc => by
    simp only [indicesCode, Except.bind_eq_ok_iff, Except.pure_eq_ok_iff] at hc
    obtain ⟨code, hrow, code', hcolumn, rfl⟩ := hc
    exact h.two (h.expr hrow) (h.expr hcolumn)

theorem element (h : ExprCases layouts scope E A I L F) :
    ∀ {segment : Tree.Segment} {code : List Instr}, elementCode layouts scope segment = .ok code → L segment code
  | .plain name, code, hc => by
    simp only [elementCode, Except.ok.injEq] at hc
    subst hc
    exact h.plain name
  | .indexed name subscript, code, hc => by
    simp only [elementCode, Except.bind_eq_ok_iff, Except.pure_eq_ok_iff] at hc
    obtain ⟨code, hindices, rfl⟩ := hc
    exact h.indexed (h.indices hindices)

theorem fields (h : ExprCases layouts scope E A I L F) :
    ∀ {segments : List Tree.Segment} {code : List Instr}, fieldsCode layouts scope segments = .ok code → F segments code
  | [], code, hc => by
    simp only [fieldsCode, Except.ok.injEq] at hc
    subst hc
    exact h.noFields
  | segment :: rest, code, hc => by
    simp only [fieldsCode, Except.bind_eq_ok_iff, Except.pure_eq_ok_iff] at hc
    obtain ⟨element, helement, code, hrest, rfl⟩ := hc
    exact h.field (h.element helement) (h.fields hrest)

end

end ExprCases

/-! ### Assignments -/

/-- The cases of an induction over lowered assignments `T`, the setting of elements `S` and the setting of fields `G`,
given what holds of expressions, indices and elements. -/
structure AssignCases (scope : Scope) (E : Tree.Expr → List Instr → Prop) (I : Tree.Subscript → List Instr → Prop)
    (L : Tree.Segment → List Instr → Prop) (T : Tree.Assignment → List Instr → Prop)
    (S : Tree.Subscript → Tree.Expr → List Instr → Prop)
    (G : Tree.Expr → Tree.Segment → List Tree.Segment → List Instr → Prop) : Prop where
  var {name : String} {value : Tree.Expr} {slot : Nat} {code : List Instr} (hslot : scope.find? name = some slot)
    (hvalue : E value code) : T ⟨[.plain name], value⟩ (code ++ [.store slot])
  element {name : String} {subscript : Tree.Subscript} {value : Tree.Expr} {slot : Nat} {code : List Instr}
    (hslot : scope.find? name = some slot) (hset : S subscript value code) :
    T ⟨[.indexed name subscript], value⟩ (.load slot :: code)
  through {base next : Tree.Segment} {rest : List Tree.Segment} {value : Tree.Expr} {slot : Nat}
    {element code : List Instr} (hslot : scope.find? base.name = some slot) (hbase : L base element)
    (hset : G value next rest code) : T ⟨base :: next :: rest, value⟩ (.load slot :: element ++ code)
  setElement {subscript : Tree.Subscript} {value : Tree.Expr} {code code' : List Instr} (hindices : I subscript code)
    (hvalue : E value code') : S subscript value (code ++ code' ++ [.op (elementSet subscript)])
  setField {name : String} {value : Tree.Expr} {code : List Instr} (hvalue : E value code) :
    G value (.plain name) [] (code ++ [.op (.setField name)])
  setFieldElement {name : String} {subscript : Tree.Subscript} {value : Tree.Expr} {code : List Instr}
    (hset : S subscript value code) : G value (.indexed name subscript) [] (.op (.getField name) :: code)
  next {segment next : Tree.Segment} {rest : List Tree.Segment} {value : Tree.Expr} {element code : List Instr}
    (hsegment : L segment element) (hset : G value next rest code) :
    G value segment (next :: rest) (.op (.getField segment.name) :: element ++ code)

namespace AssignCases
variable {layouts : Layouts} {scope : Scope} {E : Tree.Expr → List Instr → Prop}
  {A : List Tree.Expr → List Instr → Prop} {I : Tree.Subscript → List Instr → Prop}
  {L : Tree.Segment → List Instr → Prop} {F : List Tree.Segment → List Instr → Prop}
  {T : Tree.Assignment → List Instr → Prop} {S : Tree.Subscript → Tree.Expr → List Instr → Prop}
  {G : Tree.Expr → Tree.Segment → List Tree.Segment → List Instr → Prop}

theorem setElement_of (h : ExprCases layouts scope E A I L F) (ha : AssignCases scope E I L T S G)
    {subscript : Tree.Subscript} {value : Tree.Expr} {code : List Instr}
    (hc : setElementCode layouts scope subscript value = .ok code) : S subscript value code := by
  simp only [setElementCode, Except.bind_eq_ok_iff, Except.pure_eq_ok_iff] at hc
  obtain ⟨code, hindices, code', hvalue, rfl⟩ := hc
  exact ha.setElement (h.indices hindices) (h.expr hvalue)

theorem setField_of (h : ExprCases layouts scope E A I L F) (ha : AssignCases scope E I L T S G) {value : Tree.Expr}
    {segment : Tree.Segment} {rest : List Tree.Segment} {code : List Instr}
    (hc : setFieldCode layouts scope value segment rest = .ok code) : G value segment rest code := by
  induction rest generalizing segment code with
  | nil =>
    cases segment with
    | plain name =>
      simp only [setFieldCode, Except.bind_eq_ok_iff, Except.pure_eq_ok_iff] at hc
      obtain ⟨code, hvalue, rfl⟩ := hc
      exact ha.setField (h.expr hvalue)
    | indexed name subscript =>
      simp only [setFieldCode, Except.bind_eq_ok_iff, Except.pure_eq_ok_iff] at hc
      obtain ⟨code, hset, rfl⟩ := hc
      exact ha.setFieldElement (setElement_of h ha hset)
  | cons next rest ih =>
    simp only [setFieldCode, Except.bind_eq_ok_iff, Except.pure_eq_ok_iff] at hc
    obtain ⟨element, helement, code, hset, rfl⟩ := hc
    exact ha.next (h.element helement) (ih hset)

theorem assign (h : ExprCases layouts scope E A I L F) (ha : AssignCases scope E I L T S G) {a : Tree.Assignment}
    {code : List Instr} (hc : assignCode layouts scope a = .ok code) : T a code := by
  obtain ⟨target, value⟩ := a
  unfold assignCode at hc
  match target with
  | [] => simp at hc
  | [.plain name] =>
    simp only [Except.bind_eq_ok_iff, Except.pure_eq_ok_iff, Scope.slot_eq_ok_iff] at hc
    obtain ⟨slot, hslot, code, hvalue, rfl⟩ := hc
    exact ha.var hslot (h.expr hvalue)
  | [.indexed name subscript] =>
    simp only [Except.bind_eq_ok_iff, Except.pure_eq_ok_iff, Scope.slot_eq_ok_iff] at hc
    obtain ⟨slot, hslot, code, hset, rfl⟩ := hc
    exact ha.element hslot (setElement_of h ha hset)
  | base :: next :: rest =>
    simp only [Except.bind_eq_ok_iff, Except.pure_eq_ok_iff, Scope.slot_eq_ok_iff] at hc
    obtain ⟨slot, hslot, element, helement, code, hset, rfl⟩ := hc
    exact ha.through hslot (h.element helement) (setField_of h ha hset)

end AssignCases

/-! ### Single instructions -/

/-- A property holds of each instruction of code. -/
def Each (P : Instr → Prop) (code : List Instr) : Prop :=
  ∀ i ∈ code, P i

section
variable {P : Instr → Prop} {i : Instr} {code code' : List Instr}

@[simp] theorem each_nil : Each P [] := nofun

@[simp] theorem each_append : Each P (code ++ code') ↔ Each P code ∧ Each P code' :=
  List.forall_mem_append

@[simp] theorem each_cons : Each P (i :: code) ↔ P i ∧ Each P code :=
  List.forall_mem_cons

end

theorem objectFree_literal (l : Tree.Literal) : (Operation.push (literalValue l)).objectFree = true := by
  cases l <;> rfl

theorem objectFree_operator (op : Tree.Operator) : (operatorOperation op).objectFree = true := by
  cases op <;> rfl

theorem objectFree_elementGet (subscript : Tree.Subscript) : (elementGet subscript).objectFree = true := by
  cases subscript <;> rfl

theorem objectFree_elementSet (subscript : Tree.Subscript) : (elementSet subscript).objectFree = true := by
  cases subscript <;> rfl

/-- What holds of each instruction that an expression or an assignment at a scope may consist of. -/
structure OfInstr (scope : Scope) (P : Instr → Prop) : Prop where
  op (o : Operation) (ho : o.objectFree = true) : P (.op o)
  load {name : String} {slot : Nat} (hslot : scope.find? name = some slot) : P (.load slot)
  store (slot : Nat) : P (.store slot)
  call (name : String) : P (callInstr name)

namespace OfInstr
variable {scope : Scope} {P : Instr → Prop}

theorem newStruct (h : OfInstr scope P) (fields : List String) : Each P (newStructCode fields) := by
  unfold newStructCode
  rw [each_cons]
  refine ⟨h.op _ rfl, ?_⟩
  induction fields with
  | nil => exact each_nil
  | cons field fields ih =>
    rw [List.flatMap_cons, each_append]
    refine ⟨?_, ih⟩
    simp [h.op .dup rfl, h.op (.addField field) rfl, h.op (.push .null) rfl, h.op (.setField field) rfl]

theorem exprCases (h : OfInstr scope P) (layouts : Layouts) :
    ExprCases layouts scope (fun _ code => Each P code) (fun _ code => Each P code)
      (fun _ code => Each P code) (fun _ code => Each P code) (fun _ code => Each P code) where
  literal l := by simp [h.op, objectFree_literal l]
  path hslot hbase hrest := by simp [h.load hslot, hbase, hrest]
  call hargs := by simp [h.call, hargs]
  array hlength := by simp [h.op (.push .null) rfl, h.op .newArray rfl, hlength]
  grid hcolumns hrows := by simp [h.op (.push .null) rfl, h.op .newGrid rfl, hcolumns, hrows]
  struct _ := h.newStruct _
  binary hleft hright := by simp [h.op, objectFree_operator, hleft, hright]
  not he := by simp [h.op .not rfl, he]
  noArgs := by simp
  arg he hrest := by simp [he, hrest]
  one hindex := hindex
  two hrow hcolumn := by simp [hrow, hcolumn]
  plain _ := by simp
  indexed hindices := by simp [h.op, objectFree_elementGet, hindices]
  noFields := by simp
  field {segment _ _ _} hsegment hrest := by simp [h.op (.getField segment.name) rfl, hsegment, hrest]

theorem assignCases (h : OfInstr scope P) :
    AssignCases scope (fun _ code => Each P code) (fun _ code => Each P code) (fun _ code => Each P code)
      (fun _ code => code ≠ [] ∧ Each P code) (fun _ _ code => Each P code)
      (fun _ _ _ code => Each P code) where
  var _ hvalue := by simp [h.store, hvalue]
  element hslot hset := by simp [h.load hslot, hset]
  through hslot hbase hset := by simp [h.load hslot, hbase, hset]
  setElement hindices hvalue := by simp [h.op, objectFree_elementSet, hindices, hvalue]
  setField {name _ _} hvalue := by simp [h.op (.setField name) rfl, hvalue]
  setFieldElement {name _ _ _} hset := by simp [h.op (.getField name) rfl, hset]
  next {segment _ _ _ _ _} hsegment hset := by simp [h.op (.getField segment.name) rfl, hsegment, hset]

end OfInstr

/-! ### Statements -/

/-- The cases of an induction over lowered statements `S`, rows of statements `R`, branches `B` and rows of branches `C`. Of
a part it is known what it is lowered to, and that the property holds of it. -/
structure StmtCases (layouts : Layouts) (S : Scope → Nat → Tree.Stmt → List Instr → Scope → Prop)
    (R : Scope → Nat → List Tree.Stmt → List Instr → Scope → Prop)
    (B : Scope → Nat → Tree.Branch → List Instr × List Instr → Scope → Prop)
    (C : Scope → Nat → List Tree.Branch → List (List Instr × List Instr) → Scope → Prop) : Prop where
  declare {scope : Scope} {start : Nat} {d : Tree.Declaration} {code : List Instr}
    (hinit : exprCode layouts scope d.init = .ok code) :
    S scope start (.declare d) (code ++ [.store scope.next]) (scope.declare d.var.name)
  assign {scope : Scope} {start : Nat} {a : Tree.Assignment} {code : List Instr}
    (ha : assignCode layouts scope a = .ok code) : S scope start (.assign a) code scope
  call {scope : Scope} {start : Nat} {name : String} {args : List Tree.Expr} {code : List Instr}
    (hargs : argsCode layouts scope args = .ok code) :
    S scope start (.call name args) (code ++ callInstr name :: (if name = "print" then [] else [.op .pop])) scope
  choose {scope scope₁ scope₂ scope₃ : Scope} {start : Nat} {first : Tree.Branch} {others : List Tree.Branch}
    {otherwise : List Tree.Stmt} {branch : List Instr × List Instr} {branches : List (List Instr × List Instr)}
    {code : List Instr} (hfirstCode : branchCode layouts scope start first = .ok (branch, scope₁))
    (hfirst : B scope start first branch scope₁)
    (hothersCode : branchesCode layouts scope₁ (start + chainLength [branch]) others = .ok (branches, scope₂))
    (hothers : C scope₁ (start + chainLength [branch]) others branches scope₂)
    (hotherwiseCode : stmtsCode layouts scope₂.enter (start + chainLength (branch :: branches)) otherwise =
      .ok (code, scope₃))
    (hotherwise : R scope₂.enter (start + chainLength (branch :: branches)) otherwise code scope₃) :
    S scope start (.choose first others otherwise)
      (chainCode start (start + chainLength (branch :: branches) + code.length) (branch :: branches) ++ code ++ [.op .nop])
      scope₃.leave
  loop {scope scope₁ : Scope} {start : Nat} {condition : Tree.Expr} {body : List Tree.Stmt} {code code' : List Instr}
    (hcondition : exprCode layouts scope condition = .ok code)
    (hbodyCode : stmtsCode layouts scope.enter (start + code.length + 1) body = .ok (code', scope₁))
    (hbody : R scope.enter (start + code.length + 1) body code' scope₁) :
    S scope start (.loop condition body) (loopCode start code code') scope₁.leave
  count {scope scope₁ : Scope} {start : Nat} {init : Tree.Declaration} {condition : Tree.Expr} {step : Tree.Assignment}
    {body : List Tree.Stmt} {icode code code' scode : List Instr}
    (hinit : exprCode layouts scope.enter init.init = .ok icode)
    (hcondition : exprCode layouts (scope.enter.declare init.var.name) condition = .ok code)
    (hbodyCode : stmtsCode layouts (scope.enter.declare init.var.name).enter
      (start + (icode.length + 1) + code.length + 1) body = .ok (code', scope₁))
    (hbody : R (scope.enter.declare init.var.name).enter (start + (icode.length + 1) + code.length + 1) body code' scope₁)
    (hstep : assignCode layouts scope₁.leave step = .ok scode) :
    S scope start (.count init condition step body)
      (icode ++ [.store scope.next] ++ loopCode (start + (icode.length + 1)) code (code' ++ scode)) scope₁.leave.leave
  ret {scope : Scope} {start : Nat} {e : Tree.Expr} {code : List Instr} (he : exprCode layouts scope e = .ok code) :
    S scope start (.ret e) (code ++ [.ret]) scope
  none (scope : Scope) (start : Nat) : R scope start [] [] scope
  more {scope scope₁ scope₂ : Scope} {start : Nat} {s : Tree.Stmt} {rest : List Tree.Stmt} {code code' : List Instr}
    (hsCode : stmtCode layouts scope start s = .ok (code, scope₁)) (hs : S scope start s code scope₁)
    (hrestCode : stmtsCode layouts scope₁ (start + code.length) rest = .ok (code', scope₂))
    (hrest : R scope₁ (start + code.length) rest code' scope₂) :
    R scope start (s :: rest) (code ++ code') scope₂
  branch {scope scope₁ : Scope} {start : Nat} {condition : Tree.Expr} {body : List Tree.Stmt} {code code' : List Instr}
    (hcondition : exprCode layouts scope condition = .ok code)
    (hbodyCode : stmtsCode layouts scope.enter (start + code.length + 1) body = .ok (code', scope₁))
    (hbody : R scope.enter (start + code.length + 1) body code' scope₁) :
    B scope start (.mk condition body) (code, code') scope₁.leave
  noBranches (scope : Scope) (start : Nat) : C scope start [] [] scope
  branches {scope scope₁ scope₂ : Scope} {start : Nat} {b : Tree.Branch} {rest : List Tree.Branch}
    {branch : List Instr × List Instr} {branches : List (List Instr × List Instr)}
    (hbCode : branchCode layouts scope start b = .ok (branch, scope₁)) (hb : B scope start b branch scope₁)
    (hrestCode : branchesCode layouts scope₁ (start + chainLength [branch]) rest = .ok (branches, scope₂))
    (hrest : C scope₁ (start + chainLength [branch]) rest branches scope₂) :
    C scope start (b :: rest) (branch :: branches) scope₂

namespace StmtCases
variable {layouts : Layouts} {S : Scope → Nat → Tree.Stmt → List Instr → Scope → Prop}
  {R : Scope → Nat → List Tree.Stmt → List Instr → Scope → Prop}
  {B : Scope → Nat → Tree.Branch → List Instr × List Instr → Scope → Prop}
  {C : Scope → Nat → List Tree.Branch → List (List Instr × List Instr) → Scope → Prop}

mutual

theorem stmt (h : StmtCases layouts S R B C) :
    ∀ {s : Tree.Stmt} {scope scope' : Scope} {start : Nat} {code : List Instr},
      stmtCode layouts scope start s = .ok (code, scope') → S scope start s code scope'
  | .declare d, scope, scope', start, code, hc => by
    simp only [stmtCode, declareCode, Except.bind_eq_ok_iff, Except.pure_eq_ok_iff, Prod.mk.injEq] at hc
    obtain ⟨code, hinit, rfl, rfl⟩ := hc
    exact h.declare hinit
  | .assign a, scope, scope', start, code, hc => by
    simp only [stmtCode, Except.bind_eq_ok_iff, Except.pure_eq_ok_iff, Prod.mk.injEq] at hc
    obtain ⟨code, ha, rfl, rfl⟩ := hc
    exact h.assign ha
  | .call name args, scope, scope', start, code, hc => by
    simp only [stmtCode, callCode, Except.bind_eq_ok_iff, Except.pure_eq_ok_iff, Prod.mk.injEq] at hc
    obtain ⟨_, ⟨code, hargs, rfl⟩, rfl, rfl⟩ := hc
    exact h.call hargs
  | .choose first others otherwise, scope, scope', start, code, hc => by
    simp only [stmtCode, Except.bind_eq_ok_iff, Except.pure_eq_ok_iff, Prod.exists, Prod.mk.injEq] at hc
    obtain ⟨bcond, bbody, scope₁, hfirst, branches, scope₂, hothers, code, scope₃, hotherwise, rfl, rfl⟩ := hc
    exact h.choose hfirst (h.branchOf hfirst) hothers (h.branchesOf hothers) hotherwise (h.stmts hotherwise)
  | .loop condition body, scope, scope', start, code, hc => by
    simp only [stmtCode, Except.bind_eq_ok_iff, Except.pure_eq_ok_iff, Prod.exists, Prod.mk.injEq] at hc
    obtain ⟨code, hcondition, code', scope₁, hbody, rfl, rfl⟩ := hc
    exact h.loop hcondition hbody (h.stmts hbody)
  | .count init condition step body, scope, scope', start, code, hc => by
    simp only [stmtCode, declareCode, Except.bind_eq_ok_iff, Except.pure_eq_ok_iff, Prod.exists, Prod.mk.injEq] at hc
    obtain ⟨_, _, ⟨icode, hinit, rfl, rfl⟩, code, hcondition, code', scope₁, hbody, scode, hstep, rfl, rfl⟩ := hc
    rw [List.length_append] at hbody
    rw [List.length_append]
    exact h.count hinit hcondition hbody (h.stmts hbody) hstep
  | .ret e, scope, scope', start, code, hc => by
    simp only [stmtCode, Except.bind_eq_ok_iff, Except.pure_eq_ok_iff, Prod.mk.injEq] at hc
    obtain ⟨code, he, rfl, rfl⟩ := hc
    exact h.ret he

theorem stmts (h : StmtCases layouts S R B C) :
    ∀ {stmts : List Tree.Stmt} {scope scope' : Scope} {start : Nat} {code : List Instr},
      stmtsCode layouts scope start stmts = .ok (code, scope') → R scope start stmts code scope'
  | [], scope, scope', start, code, hc => by
    simp only [stmtsCode, Except.ok.injEq, Prod.mk.injEq] at hc
    obtain ⟨rfl, rfl⟩ := hc
    exact h.none scope start
  | s :: rest, scope, scope', start, code, hc => by
    simp only [stmtsCode, Except.bind_eq_ok_iff, Except.pure_eq_ok_iff, Prod.exists, Prod.mk.injEq] at hc
    obtain ⟨code, scope₁, hs, code', scope₂, hrest, rfl, rfl⟩ := hc
    exact h.more hs (h.stmt hs) hrest (h.stmts hrest)

theorem branchOf (h : StmtCases layouts S R B C) :
    ∀ {b : Tree.Branch} {scope scope' : Scope} {start : Nat} {branch : List Instr × List Instr},
      branchCode layouts scope start b = .ok (branch, scope') → B scope start b branch scope'
  | .mk condition body, scope, scope', start, branch, hc => by
    simp only [branchCode, Except.bind_eq_ok_iff, Except.pure_eq_ok_iff, Prod.exists, Prod.mk.injEq] at hc
    obtain ⟨code, hcondition, code', scope₁, hbody, rfl, rfl⟩ := hc
    exact h.branch hcondition hbody (h.stmts hbody)

theorem branchesOf (h : StmtCases layouts S R B C) :
    ∀ {bs : List Tree.Branch} {scope scope' : Scope} {start : Nat} {branches : List (List Instr × List Instr)},
      branchesCode layouts scope start bs = .ok (branches, scope') → C scope start bs branches scope'
  | [], scope, scope', start, branches, hc => by
    simp only [branchesCode, Except.ok.injEq, Prod.mk.injEq] at hc
    obtain ⟨rfl, rfl⟩ := hc
    exact h.noBranches scope start
  | b :: rest, scope, scope', start, branches, hc => by
    simp only [branchesCode, Except.bind_eq_ok_iff, Except.pure_eq_ok_iff, Prod.exists, Prod.mk.injEq] at hc
    obtain ⟨bcond, bbody, scope₁, hb, branches, scope₂, hrest, rfl, rfl⟩ := hc
    exact h.branches hb (h.branchOf hb) hrest (h.branchesOf hrest)

end

end StmtCases

end Bytecode.Lowering
