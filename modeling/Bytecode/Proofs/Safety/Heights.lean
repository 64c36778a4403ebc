import Bytecode.Proofs.Lowering.Calls
import Bytecode.Proofs.Safety.Discipline

/-! Heights of the operand stack in lowered code. The indices of a function can be labelled with heights that agree along
    every way through its code: none at the start of a statement, one more behind an expression than before it, and one at
    a return. -/

namespace Bytecode.Safety
open Evaluation Lowering

/-- The discipline of heights. An instruction finds its operands above a base, and a return finds a single one. A call of
no function fails, so that any height may stand behind it. -/
def heights (c : Chunk) (base : Nat) : Discipline Nat where
  allowed h i := base + i.takes c ≤ h ∧ (i = .ret → h = 1)
  flow h i h' := i.Resolves c → h' = h - i.takes c + i.gives
  weaker h h' := h = h'
  refl _ := rfl
  trans := Eq.trans
  flow_weaker hflow hm := hm ▸ hflow

/-- Code at any index leads from one height to another one, without touching what lies below a base. -/
def Leads (c : Chunk) (base h : Nat) (code : List Instr) (h' : Nat) : Prop :=
  ∀ start, (heights c base).Fits (fun _ => True) start h code h' (fun _ => True)

section
variable {c : Chunk} {base h h₁ h' : Nat} {code code' : List Instr}

theorem Leads.nil : Leads c base h [] h :=
  fun _ => .nil

theorem Leads.append (hcode : Leads c base h code h₁) (hcode' : Leads c base h₁ code' h') :
    Leads c base h (code ++ code') h' :=
  fun start => ((hcode start).append (hcode' (start + code.length))).unmark

theorem Leads.single {i : Instr} (hi : i.straight = true) (hle : base + i.takes c ≤ h)
    (hflow : i.Resolves c → h' = h - i.takes c + i.gives) : Leads c base h [i] h' := by
  refine fun start => .straight hi ⟨hle, ?_⟩ hflow
  rintro rfl
  cases hi

/-- An operation puts the operands it gives in the place of those it takes. -/
theorem Leads.op (o : Operation) (hle : base ≤ h) : Leads c base (h + o.takes) [.op o] (h + o.gives) := by
  refine .single rfl (Nat.add_le_add_right hle _) fun _ => ?_
  simp [Instr.takes, Instr.gives]

theorem Leads.cons {i : Instr} (hi : Leads c base h [i] h₁) (hcode : Leads c base h₁ code h') :
    Leads c base h (i :: code) h' :=
  hi.append hcode

/-! ### Expressions and assignments -/

theorem leads_load (slot : Nat) (hle : base ≤ h) : Leads c base h [.load slot] (h + 1) :=
  .single rfl hle fun _ => rfl

theorem leads_getField (field : String) (hlt : base < h) : Leads c base h [.op (.getField field)] h := by
  obtain ⟨n, rfl⟩ := Nat.exists_eq_add_of_lt hlt
  exact .op _ (Nat.le_add_right base n)

/-- A call behind its arguments, of which it has the right number. -/
theorem leads_callInstr {layouts : Layouts} {p : Tree.Program} (hlower : lowerFunctions layouts {} p.functions = .ok c)
    {name : String} {args : List Tree.Expr} (hright : rightArity p name args = true) {n : Nat}
    (hgives : (callInstr name).gives = n) (hle : base ≤ h) :
    Leads c base (h + args.length) [callInstr name] (h + n) := by
  by_cases hresolves : (callInstr name).Resolves c
  · have htakes := takes_callInstr hlower hright hresolves
    exact .single (callInstr_straight name) (by omega) fun _ => by omega
  · have htakes := Instr.takes_of_not_resolves hresolves
    exact .single (callInstr_straight name) (by omega) fun h => absurd h hresolves

theorem leads_newStructCode (fields : List String) (hle : base ≤ h) : Leads c base h (newStructCode fields) (h + 1) := by
  have hle₁ : base ≤ h + 1 := Nat.le_succ_of_le hle
  have hle₂ : base ≤ h + 2 := Nat.le_succ_of_le hle₁
  have hnew : Leads c base h [.op .newStruct] (h + 1) := .op _ hle
  refine hnew.cons ?_
  induction fields with
  | nil => exact .nil
  | cons field fields ih =>
    have hdup : Leads c base (h + 1) [.op .dup] (h + 2) := .op _ hle
    have hadd : Leads c base (h + 2) [.op (.addField field)] (h + 1) := .op _ hle₁
    have hnull : Leads c base (h + 2) [.op (.push .null)] (h + 3) := .op _ hle₂
    have hset : Leads c base (h + 3) [.op (.setField field)] (h + 1) := .op _ hle₁
    rw [List.flatMap_cons]
    exact (hdup.cons (hadd.cons (hdup.cons (hnull.cons hset)))).append ih

/-- How many indices a subscript has. -/
def indexCount : Tree.Subscript → Nat
  | .one _ => 1
  | .two .. => 2

theorem heightExprCases {layouts : Layouts} {p : Tree.Program} (hlower : lowerFunctions layouts {} p.functions = .ok c)
    (scope : Scope) :
    ExprCases layouts scope
      (fun e code => exprCalls p e = true → ∀ base h, base ≤ h → Leads c base h code (h + 1))
      (fun args code => argsCalls p args = true → ∀ base h, base ≤ h → Leads c base h code (h + args.length))
      (fun s code => subscriptCalls p s = true → ∀ base h, base ≤ h → Leads c base h code (h + indexCount s))
      (fun s code => segmentCalls p s = true → ∀ base h, base < h → Leads c base h code h)
      (fun ss code => segmentsCalls p ss = true → ∀ base h, base < h → Leads c base h code h) where
  literal l _ base h hle := .op _ hle
  path {base' rest slot element fields} _ hbase hrest hcalls base h hle := by
    rw [exprCalls, segmentsCalls, Bool.and_eq_true] at hcalls
    have helement := hbase hcalls.1 base (h + 1) (Nat.lt_succ_of_le hle)
    have hfields := hrest hcalls.2 base (h + 1) (Nat.lt_succ_of_le hle)
    exact ((leads_load slot hle).append helement).append hfields
  call {name args code} hargs hcalls base h hle := by
    simp only [exprCalls, Bool.and_eq_true, bne_iff_ne] at hcalls
    obtain ⟨⟨hname, hright⟩, hcalls⟩ := hcalls
    exact (hargs hcalls base h hle).append (leads_callInstr hlower hright (gives_callInstr hname) hle)
  array {type length code} hlength hcalls base h hle := by
    rw [exprCalls, subscriptCalls] at hcalls
    have hnull : Leads c base (h + 1) [.op (.push .null)] (h + 2) := .op _ (Nat.le_succ_of_le hle)
    have hnew : Leads c base (h + 2) [.op .newArray] (h + 1) := .op _ hle
    exact (hlength hcalls base h hle).append (hnull.cons hnew)
  grid {type rows columns code code'} hcolumns hrows hcalls base h hle := by
    rw [exprCalls, subscriptCalls, Bool.and_eq_true] at hcalls
    have hle₁ : base ≤ h + 1 := Nat.le_succ_of_le hle
    have hnull : Leads c base (h + 2) [.op (.push .null)] (h + 3) := .op _ (Nat.le_succ_of_le hle₁)
    have hnew : Leads c base (h + 3) [.op .newGrid] (h + 1) := .op _ hle
    exact ((hcolumns hcalls.2 base h hle).append (hrows hcalls.1 base (h + 1) hle₁)).append (hnull.cons hnew)
  struct {name fields} _ _ base h hle := leads_newStructCode fields hle
  binary {op left right code code'} hleft hright hcalls base h hle := by
    rw [exprCalls, Bool.and_eq_true] at hcalls
    have hop : Leads c base (h + 2) [.op (operatorOperation op)] (h + 1) := by
      cases op <;> exact .op _ hle
    exact ((hleft hcalls.1 base h hle).append (hright hcalls.2 base (h + 1) (Nat.le_succ_of_le hle))).append hop
  not {e code} he hcalls base h hle := by
    rw [exprCalls] at hcalls
    have hnot : Leads c base (h + 1) [.op .not] (h + 1) := .op _ hle
    exact (he hcalls base h hle).append hnot
  noArgs _ base h _ := .nil
  arg {e rest code code'} he hrest hcalls base h hle := by
    rw [argsCalls, Bool.and_eq_true] at hcalls
    have hothers := hrest hcalls.2 base (h + 1) (Nat.le_succ_of_le hle)
    rw [Nat.add_right_comm] at hothers
    exact (he hcalls.1 base h hle).append hothers
  one {index code} hindex hcalls base h hle := by
    rw [subscriptCalls] at hcalls
    exact hindex hcalls base h hle
  two {row column code code'} hrow hcolumn hcalls base h hle := by
    rw [subscriptCalls, Bool.and_eq_true] at hcalls
    exact (hrow hcalls.1 base h hle).append (hcolumn hcalls.2 base (h + 1) (Nat.le_succ_of_le hle))
  plain name _ base h _ := .nil
  indexed {name subscript code} hindices hcalls base h hlt := by
    rw [segmentCalls] at hcalls
    -- The object itself lies above the base and is taken with its indices.
    obtain ⟨h, rfl⟩ := Nat.exists_eq_add_of_lt hlt
    have hget : Leads c base (base + h + 1 + indexCount subscript) [.op (elementGet subscript)] (base + h + 1) := by
      cases subscript <;> exact .op _ (Nat.le_add_right base h)
    exact (hindices hcalls base _ (Nat.le_of_lt hlt)).append hget
  noFields _ base h _ := .nil
  field {segment rest element code} hsegment hrest hcalls base h hlt := by
    rw [segmentsCalls, Bool.and_eq_true] at hcalls
    exact ((leads_getField segment.name hlt).append (hsegment hcalls.1 base h hlt)).append (hrest hcalls.2 base h hlt)

theorem heightAssignCases (p : Tree.Program) (c : Chunk) (scope : Scope) :
    AssignCases scope (fun e code => exprCalls p e = true → ∀ base h, base ≤ h → Leads c base h code (h + 1))
      (fun s code => subscriptCalls p s = true → ∀ base h, base ≤ h → Leads c base h code (h + indexCount s))
      (fun s code => segmentCalls p s = true → ∀ base h, base < h → Leads c base h code h)
      (fun a code => assignCalls p a = true → ∀ base h, base ≤ h → Leads c base h code h)
      (fun s e code => subscriptCalls p s = true → exprCalls p e = true → ∀ base h, base ≤ h → Leads c base (h + 1) code h)
      (fun e s ss code => segmentsCalls p (s :: ss) = true → exprCalls p e = true →
        ∀ base h, base ≤ h → Leads c base (h + 1) code h) where
  var {name value slot code} _ hvalue hcalls base h hle := by
    simp only [assignCalls, Bool.and_eq_true] at hcalls
    have hstore : Leads c base (h + 1) [.store slot] h := .single rfl (Nat.add_le_add_right hle 1) fun _ => rfl
    exact (hvalue hcalls.2 base h hle).append hstore
  element {name subscript value slot code} _ hset hcalls base h hle := by
    simp only [assignCalls, segmentsCalls, segmentCalls, Bool.and_true, Bool.and_eq_true] at hcalls
    exact (leads_load slot hle).cons (hset hcalls.1 hcalls.2 base h hle)
  through {base' next rest value slot element code} _ hbase hset hcalls base h hle := by
    rw [assignCalls, segmentsCalls, Bool.and_eq_true, Bool.and_eq_true] at hcalls
    obtain ⟨⟨hfirst, hnext⟩, hvalue⟩ := hcalls
    have helement := hbase hfirst base (h + 1) (Nat.lt_succ_of_le hle)
    exact ((leads_load slot hle).append helement).append (hset hnext hvalue base h hle)
  setElement {subscript value code code'} hindices hvalue hsubscript hcalls base h hle := by
    have hle₁ : base ≤ h + 1 := Nat.le_succ_of_le hle
    -- The instruction that writes takes the element, its indices and the value, which is all that was put there.
    have hset : Leads c base (h + 1 + indexCount subscript + 1) [.op (elementSet subscript)] h := by
      cases subscript <;> exact .op _ hle
    have hindex := hindices hsubscript base (h + 1) hle₁
    exact (hindex.append (hvalue hcalls base _ (Nat.le_trans hle₁ (Nat.le_add_right _ _)))).append hset
  setField {name value code} hvalue _ hcalls base h hle := by
    have hset : Leads c base (h + 2) [.op (.setField name)] h := .op _ hle
    exact (hvalue hcalls base (h + 1) (Nat.le_succ_of_le hle)).append hset
  setFieldElement {name subscript value code} hset hsegments hcalls base h hle := by
    simp only [segmentsCalls, segmentCalls, Bool.and_true] at hsegments
    exact (leads_getField name (Nat.lt_succ_of_le hle)).cons (hset hsegments hcalls base h hle)
  next {segment next rest value element code} hsegment hset hsegments hcalls base h hle := by
    rw [segmentsCalls, Bool.and_eq_true] at hsegments
    have hlt : base < h + 1 := Nat.lt_succ_of_le hle
    exact ((leads_getField segment.name hlt).append (hsegment hsegments.1 base (h + 1) hlt)).append
      (hset hsegments.2 hcalls base h hle)

theorem leads_stores (slots : List Nat) (hle : base ≤ h) : Leads c base (h + slots.length) (slots.map .store) h := by
  induction slots with
  | nil => exact .nil
  | cons slot slots ih =>
    have hstore : Leads c base (h + (slots.length + 1)) [.store slot] (h + slots.length) :=
      .single rfl (by simp only [Instr.takes]; omega) fun _ => by simp [Instr.takes, Instr.gives]
    exact hstore.cons ih

/-! ### Functions -/

variable {layouts : Layouts} {p : Tree.Program}

theorem follows_heights (hlower : lowerFunctions layouts {} p.functions = .ok c) :
    Follows (heights c 0) layouts p True id (fun _ => 0) (fun _ => 1) where
  same _ := rfl
  enter _ := rfl
  leave _ := rfl
  expr {scope e code} hcode hcalls start :=
    (heightExprCases hlower scope).expr hcode (hcalls trivial) 0 0 (Nat.le_refl 0) start
  assign {scope a code} hcode hcalls start :=
    AssignCases.assign (heightExprCases hlower scope) (heightAssignCases p c scope) hcode (hcalls trivial) 0 0
      (Nat.le_refl 0) start
  call {scope name args code} hcode hcalls start := by
    obtain ⟨hright, hargs⟩ := hcalls trivial
    have hcode := (heightExprCases hlower scope).args hcode hargs 0 0 (Nat.le_refl 0)
    -- A print leaves nothing on the stack; the result of any other call is dropped.
    by_cases hname : name = "print"
    · rw [if_pos hname]
      have hwrite : (callInstr name).gives = 0 := by rw [hname]; rfl
      exact (hcode.append (leads_callInstr hlower hright hwrite (Nat.le_refl 0))) start
    · rw [if_neg hname]
      have hcall := leads_callInstr hlower hright (gives_callInstr hname) (Nat.le_refl 0)
      have hpop : Leads c 0 1 [.op .pop] 0 := .op _ (Nat.le_refl 0)
      exact (hcode.append (hcall.cons hpop)) start
  store scope name := ⟨⟨Nat.le_refl 1, nofun⟩, fun _ => rfl⟩
  test scope target := ⟨⟨Nat.le_refl 1, nofun⟩, fun _ => rfl⟩
  jump scope target := ⟨⟨Nat.le_refl 0, nofun⟩, fun _ => rfl⟩
  nop scope := ⟨⟨Nat.le_refl 0, nofun⟩, fun _ => rfl⟩
  ret scope := ⟨Nat.le_refl 1, fun _ => rfl⟩
  null scope := ⟨⟨Nat.le_refl 0, nofun⟩, fun _ => rfl⟩
  params params := by
    have hstores : Leads c 0 (0 + (List.range params.length).length) (paramCode params) 0 :=
      leads_stores (List.range params.length) (Nat.le_refl 0)
    rw [List.length_range, Nat.zero_add] at hstores
    exact hstores 0

end

end Bytecode.Safety
