import Bytecode.Proofs.Lowering.Control

/-! The calls of a tree and of its code. Lowering keeps them in their order: the names that the code of a function calls are
    the names that its tree calls, apart from those of the functions that every program knows, which have instructions of
    their own. -/

namespace Bytecode

/-- The name that an instruction calls. -/
def Instr.callee? : Instr → Option String
  | .call name => some name
  | _ => none

theorem Instr.callee?_eq_some_iff {i : Instr} {name : String} : i.callee? = some name ↔ i = .call name := by
  cases i <;> simp [callee?]

namespace Lowering

/-! ### The calls of a tree -/

mutual

/-- The names that an expression calls, in the order in which it calls them. -/
def exprCallees : Tree.Expr → List String
  | .literal _ | .newStruct _ => []
  | .path segments => segmentsCallees segments
  | .call name args => argsCallees args ++ [name]
  | .newArray _ (.one length) => exprCallees length
  | .newArray _ (.two rows columns) => exprCallees columns ++ exprCallees rows
  | .binary _ left right => exprCallees left ++ exprCallees right
  | .not e => exprCallees e

def argsCallees : List Tree.Expr → List String
  | [] => []
  | e :: rest => exprCallees e ++ argsCallees rest

def subscriptCallees : Tree.Subscript → List String
  | .one index => exprCallees index
  | .two row column => exprCallees row ++ exprCallees column

def segmentCallees : Tree.Segment → List String
  | .plain _ => []
  | .indexed _ subscript => subscriptCallees subscript

def segmentsCallees : List Tree.Segment → List String
  | [] => []
  | segment :: rest => segmentCallees segment ++ segmentsCallees rest

end

def assignCallees (a : Tree.Assignment) : List String :=
  segmentsCallees a.target ++ exprCallees a.value

mutual

/-- The names that a statement calls, in the order in which they stand in it. -/
def stmtCallees : Tree.Stmt → List String
  | .declare d => exprCallees d.init
  | .assign a => assignCallees a
  | .call name args => argsCallees args ++ [name]
  | .choose first others otherwise => branchCallees first ++ branchesCallees others ++ stmtsCallees otherwise
  | .loop condition body => exprCallees condition ++ stmtsCallees body
  | .count init condition step body =>
    exprCallees init.init ++ exprCallees condition ++ stmtsCallees body ++ assignCallees step
  | .ret e => exprCallees e

def stmtsCallees : List Tree.Stmt → List String
  | [] => []
  | s :: rest => stmtCallees s ++ stmtsCallees rest

def branchCallees : Tree.Branch → List String
  | .mk condition body => exprCallees condition ++ stmtsCallees body

def branchesCallees : List Tree.Branch → List String
  | [] => []
  | b :: rest => branchCallees b ++ branchesCallees rest

end

/-! ### The calls of code -/

/-- The names that code calls, in their order. -/
def calledNames (code : List Instr) : List String :=
  code.filterMap Instr.callee?

/-- The names that are not those of functions that every program knows. -/
def ownNames (names : List String) : List String :=
  names.filter fun name => (builtin? name).isNone

section
variable {name : String} {names : List String} {code : List Instr}

theorem mem_calledNames : name ∈ calledNames code ↔ .call name ∈ code := by
  simp [calledNames, Instr.callee?_eq_some_iff]

theorem mem_ownNames : name ∈ ownNames names ↔ name ∈ names ∧ builtin? name = none := by
  simp [ownNames]

@[simp] theorem calledNames_nil : calledNames [] = [] := rfl

@[simp] theorem calledNames_append (code code' : List Instr) :
    calledNames (code ++ code') = calledNames code ++ calledNames code' :=
  List.filterMap_append

@[simp] theorem calledNames_cons (i : Instr) (code : List Instr) :
    calledNames (i :: code) = i.callee?.toList ++ calledNames code := by
  cases h : i.callee? <;> simp [calledNames, h]

@[simp] theorem ownNames_append (names names' : List String) :
    ownNames (names ++ names') = ownNames names ++ ownNames names' :=
  List.filter_append ..

/-- A call is an instruction of its own for a function that every program knows, and a call otherwise. -/
theorem callee?_callInstr (name : String) : (callInstr name).callee?.toList = ownNames [name] := by
  unfold callInstr ownNames builtin?
  split <;> simp [Instr.callee?, *]

theorem calledNames_newStructCode (fields : List String) : calledNames (newStructCode fields) = [] := by
  unfold newStructCode
  induction fields with
  | nil => rfl
  | cons field fields ih => simpa [Instr.callee?] using ih

/-- A return that is added calls nothing. -/
theorem calledNames_withReturn (code : List Instr) : calledNames (withReturn code) = calledNames code := by
  rcases withReturn_cases code with ⟨-, heq⟩ | ⟨-, heq⟩
  · rw [heq]
  · rw [heq, calledNames_append]
    simp [Instr.callee?]

end

/-! ### Lowering keeps the calls -/

/-- The code calls the names, apart from those of functions that every program knows. -/
def CallsAs (names : List String) (code : List Instr) : Prop :=
  calledNames code = ownNames names

namespace CallsAs
variable {names names' : List String} {code code' : List Instr} {i : Instr}

theorem nil : CallsAs [] [] := rfl

theorem append (h : CallsAs names code) (h' : CallsAs names' code') : CallsAs (names ++ names') (code ++ code') := by
  rw [CallsAs, calledNames_append, ownNames_append, h, h']

theorem cons (hi : i.callee? = none) (h : CallsAs names code) : CallsAs names (i :: code) := by
  rw [CallsAs, calledNames_cons, hi]
  exact h

/-- Code behind that calls nothing. -/
theorem behind (h : CallsAs names code) (h' : calledNames code' = []) : CallsAs names (code ++ code') := by
  rw [CallsAs, calledNames_append, h', List.append_nil]
  exact h

/-- A call of a builtin function becomes an operation, any other an instruction with its name. -/
theorem call (h : CallsAs names code) (name : String) : CallsAs (names ++ [name]) (code ++ [callInstr name]) :=
  h.append (by rw [CallsAs, calledNames_cons, callee?_callInstr, calledNames_nil, List.append_nil])

end CallsAs

/-- The code of an expression calls what the expression calls, in the same order. -/
theorem exprCallCases (layouts : Layouts) (scope : Scope) :
    ExprCases layouts scope (fun e => CallsAs (exprCallees e)) (fun args => CallsAs (argsCallees args))
      (fun subscript => CallsAs (subscriptCallees subscript)) (fun segment => CallsAs (segmentCallees segment))
      (fun segments => CallsAs (segmentsCallees segments)) where
  literal _ := .cons rfl .nil
  path _ hbase hrest := (hbase.cons rfl).append hrest
  call hargs := hargs.call _
  array hlength := hlength.behind rfl
  grid hcolumns hrows := (hcolumns.append hrows).behind rfl
  struct _ := calledNames_newStructCode _
  binary hleft hright := (hleft.append hright).behind rfl
  not he := he.behind rfl
  noArgs := .nil
  arg he hrest := he.append hrest
  one hindex := hindex
  two hrow hcolumn := hrow.append hcolumn
  plain _ := .nil
  indexed hindices := hindices.behind rfl
  noFields := .nil
  field hsegment hrest := (hsegment.cons rfl).append hrest

theorem assignCallCases (scope : Scope) :
    AssignCases scope (fun e => CallsAs (exprCallees e)) (fun subscript => CallsAs (subscriptCallees subscript))
      (fun segment => CallsAs (segmentCallees segment)) (fun a => CallsAs (assignCallees a))
      (fun subscript value => CallsAs (subscriptCallees subscript ++ exprCallees value))
      (fun value segment rest => CallsAs (segmentsCallees (segment :: rest) ++ exprCallees value)) where
  var _ hvalue := hvalue.behind rfl
  element {_ subscript _ _ _} _ hset := by
    rw [assignCallees, segmentsCallees, segmentsCallees, List.append_nil]
    exact hset.cons rfl
  through _ hbase hset := by
    rw [assignCallees, segmentsCallees, List.append_assoc]
    exact (hbase.cons rfl).append hset
  setElement hindices hvalue := (hindices.append hvalue).behind rfl
  setField hvalue := hvalue.behind rfl
  setFieldElement hset := by
    rw [segmentsCallees, segmentsCallees, List.append_nil]
    exact hset.cons rfl
  next hsegment hset := by
    rw [segmentsCallees, List.append_assoc]
    exact (hsegment.cons rfl).append hset

section
variable {layouts : Layouts} {scope : Scope} {code : List Instr}

theorem exprCode_calls {e : Tree.Expr} (h : exprCode layouts scope e = .ok code) : CallsAs (exprCallees e) code :=
  (exprCallCases layouts scope).expr h

theorem argsCode_calls {args : List Tree.Expr} (h : argsCode layouts scope args = .ok code) :
    CallsAs (argsCallees args) code :=
  (exprCallCases layouts scope).args h

theorem assignCode_calls {a : Tree.Assignment} (h : assignCode layouts scope a = .ok code) :
    CallsAs (assignCallees a) code :=
  AssignCases.assign (exprCallCases layouts scope) (assignCallCases scope) h

end

theorem CallsAs.loop {names names' : List String} {condition body : List Instr} (hcondition : CallsAs names condition)
    (hbody : CallsAs names' body) (start : Nat) : CallsAs (names ++ names') (loopCode start condition body) := by
  unfold loopCode
  exact (hcondition.append (hbody.cons rfl)).behind rfl

theorem CallsAs.chain {names : List String} {branch : List Instr × List Instr}
    (h : CallsAs names (branch.1 ++ branch.2)) (start exit : Nat) : CallsAs names (chainCode start exit [branch]) := by
  rw [CallsAs, calledNames_append] at h
  rw [CallsAs, ← h]
  simp [chainCode, Instr.callee?]

/-- The code of a statement calls what the statement calls, in the same order. -/
theorem stmtCallCases (layouts : Layouts) :
    StmtCases layouts (fun _ _ s code _ => CallsAs (stmtCallees s) code)
      (fun _ _ stmts code _ => CallsAs (stmtsCallees stmts) code)
      (fun _ _ b branch _ => CallsAs (branchCallees b) (branch.1 ++ branch.2))
      (fun _ _ bs branches _ => ∀ start exit, CallsAs (branchesCallees bs) (chainCode start exit branches)) where
  declare hinit := (exprCode_calls hinit).behind rfl
  assign ha := assignCode_calls ha
  call {_ _ name _ code} hargs := by
    rw [stmtCallees, List.append_cons code]
    refine ((argsCode_calls hargs).call name).behind ?_
    split <;> rfl
  choose _ hfirst _ hothers _ hotherwise := by
    rw [stmtCallees, chainCode_cons]
    exact (((hfirst.chain _ _).append (hothers _ _)).append hotherwise).behind rfl
  loop hcondition _ hbody := (exprCode_calls hcondition).loop hbody _
  count hinit hcondition _ hbody hstep := by
    rw [stmtCallees, List.append_assoc, List.append_assoc]
    have hround := hbody.append (assignCode_calls hstep)
    refine .append ?_ ((exprCode_calls hcondition).loop hround _)
    exact (exprCode_calls hinit).behind rfl
  ret he := (exprCode_calls he).behind rfl
  none _ _ := .nil
  more _ hs _ hrest := hs.append hrest
  branch hcondition _ hbody := (exprCode_calls hcondition).append hbody
  noBranches _ _ _ _ := .nil
  branches _ hb _ hrest start exit := by
    rw [branchesCallees, chainCode_cons]
    exact (hb.chain _ _).append (hrest _ _)

/-- A lowered function calls the names that its body calls, apart from those of functions that every program knows. -/
theorem lowerFunction_calls {layouts : Layouts} {f : Tree.Function} {g : Function} (h : lowerFunction layouts f = .ok g) :
    CallsAs (stmtsCallees f.body) g.code.toList := by
  obtain ⟨body, scope, hbody, rfl⟩ := lowerFunction_eq_ok h
  have hparams : calledNames (paramCode f.params) = [] := by simp [calledNames, paramCode, Instr.callee?]
  have hcalls := (stmtCallCases layouts).stmts hbody
  rw [CallsAs, calledNames_withReturn, calledNames_append, hparams]
  exact hcalls

end Lowering
end Bytecode
