import Bytecode.Proofs.Lowering.Scope
import Bytecode.Proofs.Scoping.Mentions

/-! Code under another numbering of slots and indices. Lowering asks a scope for the slots of the variables that a tree
    mentions and for the next slot, and nothing else. So for a scope that has other slots for the same variables, and from
    another index on, the same tree is lowered to the same instructions with the slots and the targets of jumps renamed, or
    is refused with the same error. -/

namespace Bytecode

/-- The instruction with its slot and its target renamed. -/
def Instr.rename (slot target : Nat → Nat) : Instr → Instr
  | .load n => .load (slot n)
  | .store n => .store (slot n)
  | .jump n => .jump (target n)
  | .jumpUnless n => .jumpUnless (target n)
  | i => i

/-- If the instruction does not fail, it leaves a value on top of the operands and goes on at the next one. -/
def Instr.pushes : Instr → Bool
  | .load _ | .op (.getField _) | .op .getIndex | .op .getCell => true
  | _ => false

namespace Scoping

/-- The variable that a mention is about. -/
def Mention.name? : Mention → Option String
  | .declares name | .reads name | .targets name | .assigns name => some name
  | _ => none

/-- The variables in mentions. -/
def names (mentions : List Mention) : List String :=
  mentions.filterMap Mention.name?

section
variable {m : Mention} {u v : List Mention} {P : String → Prop}

theorem forall_names_append : (∀ x ∈ names (u ++ v), P x) ↔ (∀ x ∈ names u, P x) ∧ ∀ x ∈ names v, P x := by
  rw [names, List.filterMap_append]
  exact List.forall_mem_append

theorem forall_names_cons : (∀ x ∈ names (m :: v), P x) ↔
    (∀ x, m.name? = some x → P x) ∧ ∀ x ∈ names v, P x := by
  unfold names
  cases hm : m.name? with
  | none => simp [List.filterMap_cons_none hm]
  | some x => simp [List.filterMap_cons_some hm]

/-- A block is about what its mentions are about. -/
theorem forall_names_block : (∀ x ∈ names (block u), P x) ↔ ∀ x ∈ names u, P x := by
  rw [block, List.cons_append, forall_names_cons, forall_names_append, forall_names_cons]
  simp [Mention.name?, names]

end
end Scoping

namespace Lowering
open Scoping

section
variable (slot target : Nat → Nat)

@[simp] theorem rename_op (o : Operation) : Instr.rename slot target (.op o) = .op o := rfl

@[simp] theorem rename_load (n : Nat) : Instr.rename slot target (.load n) = .load (slot n) := rfl

@[simp] theorem rename_store (n : Nat) : Instr.rename slot target (.store n) = .store (slot n) := rfl

@[simp] theorem rename_jump (n : Nat) : Instr.rename slot target (.jump n) = .jump (target n) := rfl

@[simp] theorem rename_jumpUnless (n : Nat) : Instr.rename slot target (.jumpUnless n) = .jumpUnless (target n) := rfl

@[simp] theorem rename_ret : Instr.rename slot target .ret = .ret := rfl

@[simp] theorem rename_callInstr (name : String) : Instr.rename slot target (callInstr name) = callInstr name := by
  unfold callInstr builtin?
  split <;> rfl

/-- Nothing is renamed by names that stay the same. -/
theorem rename_id : Instr.rename id id = id := by
  funext i
  cases i <;> rfl

theorem rename_newStructCode (fields : List String) :
    (newStructCode fields).map (Instr.rename slot target) = newStructCode fields := by
  unfold newStructCode
  rw [List.map_cons, rename_op, List.map_flatMap]
  rfl

end

/-! ### Expressions and assignments -/

/-- The variables of some mentions have renamed slots. -/
def Maps (slot : Nat → Nat) (s s' : Scope) (mentions : List Mention) : Prop :=
  ∀ x ∈ names mentions, s'.find? x = (s.find? x).map slot

section
variable {layouts : Layouts} {slot : Nat → Nat} {s s' : Scope}

theorem maps_append {u v : List Mention} : Maps slot s s' (u ++ v) ↔ Maps slot s s' u ∧ Maps slot s s' v :=
  forall_names_append

/-- The slot of a mentioned variable is renamed, and a variable without a slot has none on either side. -/
theorem Maps.slot_eq {name : String} {v : List Mention} {m : Mention} (h : Maps slot s s' (m :: v))
    (hm : m.name? = some name) : s'.slot name = slot <$> s.slot name := by
  have hname := (forall_names_cons.mp h).1 name hm
  unfold Scope.slot
  rw [hname]
  cases s.find? name <;> rfl

theorem Maps.rest {v : List Mention} {m : Mention} (h : Maps slot s s' (m :: v)) : Maps slot s s' v :=
  (forall_names_cons.mp h).2

variable (target : Nat → Nat)

mutual

/-- Where the slots of all mentioned variables are renamed, so are those in the code. -/
theorem exprCode_rename : ∀ (e : Tree.Expr), Maps slot s s' (exprMentions e) →
    exprCode layouts s' e = List.map (Instr.rename slot target) <$> exprCode layouts s e
  | .literal _, _ => rfl
  | .path [], _ => rfl
  | .path (base :: rest), h => by
    have hrest := maps_append.mp h.rest
    simp only [exprCode, h.slot_eq rfl, elementCode_rename base hrest.1, fieldsCode_rename rest hrest.2, bind_map_left,
      map_bind, map_pure]
    simp
  | .call _ args, h => by
    simp only [exprCode, argsCode_rename args h, bind_map_left, map_bind, map_pure]
    simp
  | .newArray _ (.one length), h => by
    simp only [exprCode, exprCode_rename length h, bind_map_left, map_bind, map_pure]
    simp
  | .newArray _ (.two rows columns), h => by
    obtain ⟨hcolumns, hrows⟩ := maps_append.mp h
    simp only [exprCode, exprCode_rename columns hcolumns, exprCode_rename rows hrows, bind_map_left, map_bind, map_pure]
    simp
  | .newStruct _, _ => by
    simp only [exprCode, map_bind, map_pure, rename_newStructCode]
  | .binary _ left right, h => by
    obtain ⟨hleft, hright⟩ := maps_append.mp h
    simp only [exprCode, exprCode_rename left hleft, exprCode_rename right hright, bind_map_left, map_bind, map_pure]
    simp
  | .not e, h => by
    simp only [exprCode, exprCode_rename e h, bind_map_left, map_bind, map_pure]
    simp

theorem argsCode_rename : ∀ (args : List Tree.Expr), Maps slot s s' (argsMentions args) →
    argsCode layouts s' args = List.map (Instr.rename slot target) <$> argsCode layouts s args
  | [], _ => rfl
  | e :: rest, h => by
    obtain ⟨he, hrest⟩ := maps_append.mp h
    simp only [argsCode, exprCode_rename e he, argsCode_rename rest hrest, bind_map_left, map_bind, map_pure]
    simp

theorem indicesCode_rename : ∀ (subscript : Tree.Subscript), Maps slot s s' (subscriptMentions subscript) →
    indicesCode layouts s' subscript = List.map (Instr.rename slot target) <$> indicesCode layouts s subscript
  | .one index, h => exprCode_rename index h
  | .two row column, h => by
    obtain ⟨hrow, hcolumn⟩ := maps_append.mp h
    simp only [indicesCode, exprCode_rename row hrow, exprCode_rename column hcolumn, bind_map_left, map_bind, map_pure]
    simp

theorem elementCode_rename : ∀ (segment : Tree.Segment), Maps slot s s' (segmentMentions segment) →
    elementCode layouts s' segment = List.map (Instr.rename slot target) <$> elementCode layouts s segment
  | .plain _, _ => rfl
  | .indexed _ subscript, h => by
    simp only [elementCode, indicesCode_rename subscript h, bind_map_left, map_bind, map_pure]
    simp

theorem fieldsCode_rename : ∀ (segments : List Tree.Segment), Maps slot s s' (segmentsMentions segments) →
    fieldsCode layouts s' segments = List.map (Instr.rename slot target) <$> fieldsCode layouts s segments
  | [], _ => rfl
  | segment :: rest, h => by
    obtain ⟨hsegment, hrest⟩ := maps_append.mp h
    simp only [fieldsCode, elementCode_rename segment hsegment, fieldsCode_rename rest hrest, bind_map_left, map_bind,
      map_pure]
    simp

end

theorem setElementCode_rename {subscript : Tree.Subscript} {value : Tree.Expr}
    (h : Maps slot s s' (subscriptMentions subscript ++ exprMentions value)) :
    setElementCode layouts s' subscript value =
      List.map (Instr.rename slot target) <$> setElementCode layouts s subscript value := by
  obtain ⟨hsubscript, hvalue⟩ := maps_append.mp h
  simp only [setElementCode, indicesCode_rename target subscript hsubscript, exprCode_rename target value hvalue,
    bind_map_left, map_bind, map_pure]
  simp

theorem setFieldCode_rename {value : Tree.Expr} {segment : Tree.Segment} {rest : List Tree.Segment}
    (h : Maps slot s s' (segmentsMentions (segment :: rest) ++ exprMentions value)) :
    setFieldCode layouts s' value segment rest =
      List.map (Instr.rename slot target) <$> setFieldCode layouts s value segment rest := by
  induction rest generalizing segment with
  | nil =>
    cases segment with
    | plain name =>
      simp only [setFieldCode, exprCode_rename target value h, bind_map_left, map_bind, map_pure]
      simp
    | indexed name subscript =>
      have hset : Maps slot s s' (subscriptMentions subscript ++ exprMentions value) := by
        simpa only [segmentsMentions, segmentMentions, List.append_nil] using h
      simp only [setFieldCode, setElementCode_rename target hset, bind_map_left, map_bind, map_pure]
      simp
  | cons next rest ih =>
    rw [segmentsMentions, List.append_assoc] at h
    obtain ⟨hsegment, hrest⟩ := maps_append.mp h
    simp only [setFieldCode, elementCode_rename target segment hsegment, ih hrest, bind_map_left, map_bind, map_pure]
    simp

/-- An assignment reads and writes the renamed slots. -/
theorem assignCode_rename (a : Tree.Assignment) (h : Maps slot s s' (assignMentions a)) :
    assignCode layouts s' a = List.map (Instr.rename slot target) <$> assignCode layouts s a := by
  obtain ⟨path, value⟩ := a
  match path with
  | [] => rfl
  | [.plain name] =>
    simp only [assignCode, h.slot_eq rfl, exprCode_rename target value (maps_append.mp h.rest).1, bind_map_left, map_bind,
      map_pure]
    simp
  | [.indexed name subscript] =>
    have hset : Maps slot s s' (subscriptMentions subscript ++ exprMentions value) := by
      have hrest : Maps slot s s' (subscriptMentions subscript ++ [] ++ exprMentions value) := h.rest
      rwa [List.append_nil] at hrest
    have hslot : s'.slot name = slot <$> s.slot name := h.slot_eq rfl
    simp only [assignCode, hslot, setElementCode_rename target hset, bind_map_left, map_bind, map_pure]
    simp
  | base :: next :: rest =>
    rw [assignMentions_through, List.append_assoc] at h
    obtain ⟨hbase, hset⟩ := maps_append.mp h.rest
    simp only [assignCode, h.slot_eq rfl, elementCode_rename target base hbase, setFieldCode_rename target hset,
      bind_map_left, map_bind, map_pure]
    simp

end

/-! ### Statements -/

/-- The same error, or two results that are related. -/
def Agree {α β : Type} (R : α → β → Prop) : Except Error α → Except Error β → Prop
  | .ok a, .ok b => R a b
  | .error e, .error e' => e = e'
  | _, _ => False

namespace Agree
variable {α β γ δ : Type} {R : α → β → Prop} {S : γ → δ → Prop} {x : Except Error α} {y : Except Error β}

theorem map (f : α → β) (x : Except Error α) : Agree (fun a b => b = f a) x (f <$> x) := by
  cases x <;> exact rfl

/-- Computations that agree still do so behind others that agree. -/
theorem bind {k : α → Except Error γ} {l : β → Except Error δ} (h : Agree R x y)
    (hk : ∀ a b, R a b → Agree S (k a) (l b)) : Agree S (x >>= k) (y >>= l) := by
  cases x with
  | error e =>
    cases y with
    | error e' => exact h
    | ok b => exact h.elim
  | ok a =>
    cases y with
    | error e' => exact h.elim
    | ok b => exact hk a b h

theorem of_ok {a : α} (h : Agree R (.ok a) y) : ∃ b, y = .ok b ∧ R a b := by
  cases y with
  | error e => exact h.elim
  | ok b => exact ⟨b, rfl, h⟩

end Agree

/-- The second scope has the same blocks with renamed slots for some names, and gives out slots that are renamed alike. -/
structure Scope.Renamed (kept : String → Prop) (slot : Nat → Nat) (s s' : Scope) : Prop where
  blocks : List.Forall₂ (fun b b' => ∀ x, kept x → List.lookup x b' = (List.lookup x b).map slot) s.blocks s'.blocks
  next : ∀ k, slot (s.next + k) = s'.next + k

namespace Scope.Renamed
variable {kept : String → Prop} {slot : Nat → Nat} {s s' : Scope}

/-- A variable that is kept is found under the renamed slot. -/
theorem find? (h : s.Renamed kept slot s') {x : String} (hx : kept x) : s'.find? x = (s.find? x).map slot := by
  obtain ⟨blocks, next⟩ := s
  obtain ⟨blocks', next'⟩ := s'
  have hblocks := h.blocks
  clear h
  unfold Scope.find?
  dsimp only at hblocks ⊢
  induction hblocks with
  | nil => rfl
  | cons hb _ ih =>
    rw [List.findSome?_cons, List.findSome?_cons, hb x hx]
    cases List.lookup x _ with
    | none => exact ih
    | some n => rfl

theorem maps (h : s.Renamed kept slot s') {mentions : List Mention} (hkept : ∀ x ∈ names mentions, kept x) :
    Maps slot s s' mentions :=
  fun x hx => h.find? (hkept x hx)

theorem enter (h : s.Renamed kept slot s') : s.enter.Renamed kept slot s'.enter :=
  ⟨.cons (fun _ _ => rfl) h.blocks, h.next⟩

theorem leave (h : s.Renamed kept slot s') : s.leave.Renamed kept slot s'.leave := by
  obtain ⟨blocks, next⟩ := s
  obtain ⟨blocks', next'⟩ := s'
  refine ⟨?_, h.next⟩
  cases h.blocks with
  | nil => exact .nil
  | cons _ hrest => exact hrest

theorem slot_next (h : s.Renamed kept slot s') : slot s.next = s'.next :=
  h.next 0

/-- A new variable gets the next slot on both sides, which the renaming takes to each other. -/
theorem declare (h : s.Renamed kept slot s') (name : String) : (s.declare name).Renamed kept slot (s'.declare name) := by
  have hnext : ∀ k, slot ((s.declare name).next + k) = (s'.declare name).next + k := by
    intro k
    rw [declare_next, declare_next, Nat.add_assoc, Nat.add_assoc]
    exact h.next (1 + k)
  have hslot := h.slot_next
  obtain ⟨blocks, next⟩ := s
  obtain ⟨blocks', next'⟩ := s'
  refine ⟨?_, hnext⟩
  cases h.blocks with
  | nil => exact .nil
  | cons hb hrest =>
    refine .cons (fun x hx => ?_) hrest
    rw [List.lookup_cons, List.lookup_cons]
    cases x == name with
    | true => exact congrArg some hslot.symm
    | false => exact hb x hx

end Scope.Renamed

/-- The targets from an index on are those from another one on. -/
def Shifts (target : Nat → Nat) (start start' : Nat) : Prop :=
  ∀ k, target (start + k) = start' + k

section
variable {slot target : Nat → Nat} {start start' : Nat}

theorem Shifts.add (h : Shifts target start start') (n : Nat) : Shifts target (start + n) (start' + n) := by
  intro k
  rw [Nat.add_assoc, Nat.add_assoc]
  exact h (n + k)

theorem Shifts.eq (h : Shifts target start start') : target start = start' :=
  h 0

/-- A loop that is moved takes its jumps along. -/
theorem rename_loopCode (h : Shifts target start start') (condition body : List Instr) :
    (loopCode start condition body).map (Instr.rename slot target) =
      loopCode start' (condition.map (Instr.rename slot target)) (body.map (Instr.rename slot target)) := by
  have hexit := (((h.add condition.length).add body.length).add 2).eq
  simp [loopCode, hexit, h.eq]

/-- Branches that are moved take along the jumps between them, and the jumps to the exit follow the exit. -/
theorem rename_chainCode (h : Shifts target start start') (exit : Nat) (branches : List (List Instr × List Instr)) :
    (chainCode start exit branches).map (Instr.rename slot target) =
      chainCode start' (target exit)
        (branches.map (Prod.map (List.map (Instr.rename slot target)) (List.map (Instr.rename slot target)))) := by
  induction branches generalizing start start' with
  | nil => rfl
  | cons branch rest ih =>
    have hnext := ((h.add branch.1.length).add branch.2.length).add 2
    simp [chainCode, hnext.eq, ih hnext]

variable (slot target)

theorem chainLength_rename (branches : List (List Instr × List Instr)) :
    chainLength (branches.map (Prod.map (List.map (Instr.rename slot target)) (List.map (Instr.rename slot target)))) =
      chainLength branches := by
  induction branches with
  | nil => rfl
  | cons branch rest ih => simp [chainLength, ih]

/-- A branch is as long as before. -/
theorem chainLength_rename_single (branch : List Instr × List Instr) :
    chainLength [Prod.map (List.map (Instr.rename slot target)) (List.map (Instr.rename slot target)) branch] =
      chainLength [branch] :=
  chainLength_rename slot target [branch]

end

/-- The second result has the renamed code of the first one, and a scope with renamed slots behind it. -/
structure Matches {α : Type} (rename : α → α) (kept : String → Prop) (slot : Nat → Nat) (r r' : α × Scope) : Prop where
  code : r'.1 = rename r.1
  scope : r.2.Renamed kept slot r'.2

section
variable {layouts : Layouts} {kept : String → Prop} {slot target : Nat → Nat}

theorem declareCode_renamed (target : Nat → Nat) {s s' : Scope} {d : Tree.Declaration} (h : s.Renamed kept slot s')
    (hkept : ∀ x ∈ names (declareMentions d), kept x) :
    Agree (Matches (List.map (Instr.rename slot target)) kept slot) (declareCode layouts s d)
      (declareCode layouts s' d) := by
  unfold declareCode
  rw [exprCode_rename target d.init (h.maps (forall_names_append.mp hkept).1)]
  refine (Agree.map _ _).bind ?_
  rintro code _ rfl
  refine ⟨?_, h.declare d.var.name⟩
  simp [h.slot_next]

mutual

/-- In a renamed scope and from another index on, a statement has the same code with the slots and targets renamed, or
the same error. -/
theorem stmtCode_renamed : ∀ (st : Tree.Stmt) {s s' : Scope} {start start' : Nat},
    Shifts target start start' → s.Renamed kept slot s' → (∀ x ∈ names (stmtMentions st), kept x) →
    Agree (Matches (List.map (Instr.rename slot target)) kept slot) (stmtCode layouts s start st)
      (stmtCode layouts s' start' st)
  | .declare d, _, _, _, _, _, h, hkept => declareCode_renamed target h hkept
  | .assign a, s, s', _, _, _, h, hkept => by
    unfold stmtCode
    rw [assignCode_rename target a (h.maps hkept)]
    refine (Agree.map _ _).bind ?_
    rintro code _ rfl
    exact ⟨rfl, h⟩
  | .call name args, s, s', _, _, _, h, hkept => by
    unfold stmtCode callCode
    rw [argsCode_rename target args (h.maps hkept)]
    simp only [bind_assoc, pure_bind]
    refine (Agree.map _ _).bind ?_
    rintro code _ rfl
    refine ⟨?_, h⟩
    split <;> simp
  | .choose first others otherwise, s, s', start, start', htarget, h, hkept => by
    obtain ⟨hbranches, hotherwise⟩ := forall_names_append.mp hkept
    obtain ⟨hfirst, hothers⟩ := forall_names_append.mp hbranches
    unfold stmtCode
    refine (branchCode_renamed first htarget h hfirst).bind ?_
    rintro ⟨branch, s₁⟩ ⟨_, s₁'⟩ ⟨rfl, h₁⟩
    dsimp only
    -- Renaming keeps lengths, so that both sides go on at indices that the targets take to each other.
    rw [chainLength_rename_single]
    refine (branchesCode_renamed others (htarget.add _) h₁ hothers).bind ?_
    rintro ⟨branches, s₂⟩ ⟨_, s₂'⟩ ⟨rfl, h₂⟩
    dsimp only
    rw [← List.map_cons, chainLength_rename]
    have hrest := htarget.add (chainLength (branch :: branches))
    refine (stmtsCode_renamed otherwise hrest h₂.enter (forall_names_block.mp hotherwise)).bind ?_
    rintro ⟨code, s₃⟩ ⟨_, s₃'⟩ ⟨rfl, h₃⟩
    refine ⟨?_, h₃.leave⟩
    simp [rename_chainCode htarget, (hrest.add code.length).eq]
  | .loop condition body, s, s', start, start', htarget, h, hkept => by
    obtain ⟨hcondition, hbody⟩ := forall_names_append.mp hkept
    unfold stmtCode
    rw [exprCode_rename target condition (h.maps hcondition)]
    refine (Agree.map _ _).bind ?_
    rintro code _ rfl
    rw [List.length_map]
    refine (stmtsCode_renamed body ((htarget.add _).add 1) h.enter (forall_names_block.mp hbody)).bind ?_
    rintro ⟨code', s₁⟩ ⟨_, s₁'⟩ ⟨rfl, h₁⟩
    exact ⟨(rename_loopCode htarget _ _).symm, h₁.leave⟩
  | .count init condition step body, s, s', start, start', htarget, h, hkept => by
    obtain ⟨hrest, hstep⟩ := forall_names_append.mp (forall_names_block.mp hkept)
    obtain ⟨hhead, hbody⟩ := forall_names_append.mp hrest
    obtain ⟨hinit, hcondition⟩ := forall_names_append.mp hhead
    unfold stmtCode
    refine (declareCode_renamed target h.enter hinit).bind ?_
    rintro ⟨icode, s₁⟩ ⟨_, s₁'⟩ ⟨rfl, h₁⟩
    dsimp only
    rw [exprCode_rename target condition (h₁.maps hcondition), List.length_map]
    have hloop := htarget.add icode.length
    refine (Agree.map _ _).bind ?_
    rintro code _ rfl
    rw [List.length_map]
    refine (stmtsCode_renamed body ((hloop.add _).add 1) h₁.enter (forall_names_block.mp hbody)).bind ?_
    rintro ⟨code', s₂⟩ ⟨_, s₂'⟩ ⟨rfl, h₂⟩
    dsimp only
    rw [assignCode_rename target step (h₂.leave.maps hstep)]
    refine (Agree.map _ _).bind ?_
    rintro scode _ rfl
    refine ⟨?_, h₂.leave.leave⟩
    rw [List.map_append, rename_loopCode hloop, List.map_append]
  | .ret e, s, s', _, _, _, h, hkept => by
    unfold stmtCode
    rw [exprCode_rename target e (h.maps hkept)]
    refine (Agree.map _ _).bind ?_
    rintro code _ rfl
    exact ⟨by simp, h⟩

theorem stmtsCode_renamed : ∀ (stmts : List Tree.Stmt) {s s' : Scope} {start start' : Nat},
    Shifts target start start' → s.Renamed kept slot s' → (∀ x ∈ names (stmtsMentions stmts), kept x) →
    Agree (Matches (List.map (Instr.rename slot target)) kept slot) (stmtsCode layouts s start stmts)
      (stmtsCode layouts s' start' stmts)
  | [], _, _, _, _, _, h, _ => ⟨rfl, h⟩
  | st :: rest, s, s', start, start', htarget, h, hkept => by
    obtain ⟨hfirst, hrest⟩ := forall_names_append.mp hkept
    unfold stmtsCode
    refine (stmtCode_renamed st htarget h hfirst).bind ?_
    rintro ⟨code, s₁⟩ ⟨_, s₁'⟩ ⟨rfl, h₁⟩
    dsimp only
    rw [List.length_map]
    refine (stmtsCode_renamed rest (htarget.add _) h₁ hrest).bind ?_
    rintro ⟨code', s₂⟩ ⟨_, s₂'⟩ ⟨rfl, h₂⟩
    exact ⟨List.map_append.symm, h₂⟩

theorem branchCode_renamed : ∀ (b : Tree.Branch) {s s' : Scope} {start start' : Nat},
    Shifts target start start' → s.Renamed kept slot s' → (∀ x ∈ names (branchMentions b), kept x) →
    Agree (Matches (Prod.map (List.map (Instr.rename slot target)) (List.map (Instr.rename slot target))) kept slot)
      (branchCode layouts s start b) (branchCode layouts s' start' b)
  | .mk condition body, s, s', start, start', htarget, h, hkept => by
    obtain ⟨hcondition, hbody⟩ := forall_names_append.mp hkept
    unfold branchCode
    rw [exprCode_rename target condition (h.maps hcondition)]
    refine (Agree.map _ _).bind ?_
    rintro code _ rfl
    rw [List.length_map]
    refine (stmtsCode_renamed body ((htarget.add _).add 1) h.enter (forall_names_block.mp hbody)).bind ?_
    rintro ⟨code', s₁⟩ ⟨_, s₁'⟩ ⟨rfl, h₁⟩
    exact ⟨rfl, h₁.leave⟩

theorem branchesCode_renamed : ∀ (bs : List Tree.Branch) {s s' : Scope} {start start' : Nat},
    Shifts target start start' → s.Renamed kept slot s' → (∀ x ∈ names (branchesMentions bs), kept x) →
    Agree (Matches (List.map (Prod.map (List.map (Instr.rename slot target)) (List.map (Instr.rename slot target)))) kept
      slot) (branchesCode layouts s start bs) (branchesCode layouts s' start' bs)
  | [], _, _, _, _, _, h, _ => ⟨rfl, h⟩
  | b :: rest, s, s', start, start', htarget, h, hkept => by
    obtain ⟨hfirst, hrest⟩ := forall_names_append.mp hkept
    unfold branchesCode
    refine (branchCode_renamed b htarget h hfirst).bind ?_
    rintro ⟨branch, s₁⟩ ⟨_, s₁'⟩ ⟨rfl, h₁⟩
    dsimp only
    rw [chainLength_rename_single]
    refine (branchesCode_renamed rest (htarget.add _) h₁ hrest).bind ?_
    rintro ⟨branches, s₂⟩ ⟨_, s₂'⟩ ⟨rfl, h₂⟩
    exact ⟨rfl, h₂⟩

end

end

end Lowering
end Bytecode
