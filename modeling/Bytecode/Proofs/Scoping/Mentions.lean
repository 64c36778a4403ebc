import Bytecode.Tree
import Mathlib.Data.List.Basic

/-! The names in a tree and what lexical scoping makes of them. A function mentions names one after the other: it declares
    variables, uses them, and makes structs, inside of blocks that are opened and closed. A use means the latest earlier
    declaration of its name in the innermost open block that has one (`Resolves`). Nothing here knows of slots or code. -/

namespace Bytecode.Scoping

/-- What a tree says about a name at a point. -/
inductive Mention where
  | opens
  | closes
  | declares (name : String)
  /-- The variable at the start of a path. -/
  | reads (name : String)
  /-- The variable of an assignment, before the value that it is assigned. -/
  | targets (name : String)
  /-- The same variable behind the value, where it is assigned. -/
  | assigns (name : String)
  | makes (struct : String)
  /-- A path without segments. -/
  | nameless
  deriving DecidableEq, Repr

namespace Mention

def isDeclaration : Mention → Bool
  | .declares _ => true
  | _ => false

/-- The variable that must be in scope. -/
def uses? : Mention → Option String
  | .reads name | .targets name | .assigns name => some name
  | _ => none

/-- The mention neither opens nor closes a block nor declares a variable. -/
def isPlain : Mention → Bool
  | .opens | .closes | .declares _ => false
  | _ => true

/-- How many blocks are open behind a mention if some were open before it. The last one cannot be closed twice. -/
def nest : Nat → Mention → Option Nat
  | depth, .opens => some (depth + 1)
  | 0, .closes => none
  | depth + 1, .closes => some depth
  | depth, _ => some depth

theorem nest_plain {m : Mention} {depth : Nat} (h : m.isPlain = true) : m.nest depth = some depth := by
  cases m with
  | opens | closes | declares => cases h
  | reads | targets | assigns | makes | nameless => rfl

/-- What is mentioned inside more blocks opens and closes the same ones. -/
theorem nest_add {m : Mention} {depth depth' : Nat} (h : m.nest depth = some depth') (outer : Nat) :
    m.nest (depth + outer) = some (depth' + outer) := by
  cases m with
  | closes =>
    cases depth with
    | zero => cases h
    | succ depth =>
      cases h
      rw [Nat.add_right_comm]
      rfl
  | opens =>
    cases h
    rw [Nat.add_right_comm]
    rfl
  | declares | reads | targets | assigns | makes | nameless =>
    cases h
    rfl

end Mention

/-! ### The mentions of a tree -/

mutual

def exprMentions : Tree.Expr → List Mention
  | .literal _ => []
  | .path [] => [.nameless]
  | .path (base :: rest) => .reads base.name :: segmentMentions base ++ segmentsMentions rest
  | .call _ args => argsMentions args
  | .newArray _ (.one length) => exprMentions length
  | .newArray _ (.two rows columns) => exprMentions columns ++ exprMentions rows
  | .newStruct name => [.makes name]
  | .binary _ left right => exprMentions left ++ exprMentions right
  | .not e => exprMentions e

def argsMentions : List Tree.Expr → List Mention
  | [] => []
  | e :: rest => exprMentions e ++ argsMentions rest

def subscriptMentions : Tree.Subscript → List Mention
  | .one index => exprMentions index
  | .two row column => exprMentions row ++ exprMentions column

/-- The mentions in the subscript of a segment. Its own name is that of a field, unless the segment starts a path. -/
def segmentMentions : Tree.Segment → List Mention
  | .plain _ => []
  | .indexed _ subscript => subscriptMentions subscript

def segmentsMentions : List Tree.Segment → List Mention
  | [] => []
  | segment :: rest => segmentMentions segment ++ segmentsMentions rest

end

def assignMentions (a : Tree.Assignment) : List Mention :=
  match a.target with
  | [] => .nameless :: exprMentions a.value
  | [.plain name] => .targets name :: exprMentions a.value ++ [.assigns name]
  | base :: rest => .reads base.name :: segmentMentions base ++ segmentsMentions rest ++ exprMentions a.value

theorem assignMentions_through (base next : Tree.Segment) (rest : List Tree.Segment) (value : Tree.Expr) :
    assignMentions ⟨base :: next :: rest, value⟩ =
      .reads base.name :: segmentMentions base ++ segmentsMentions (next :: rest) ++ exprMentions value := by
  cases base <;> rfl

/-- A variable is declared behind its first value. -/
def declareMentions (d : Tree.Declaration) : List Mention :=
  exprMentions d.init ++ [.declares d.var.name]

def block (mentions : List Mention) : List Mention :=
  .opens :: mentions ++ [.closes]

mutual

def stmtMentions : Tree.Stmt → List Mention
  | .declare d => declareMentions d
  | .assign a => assignMentions a
  | .call _ args => argsMentions args
  | .choose first others otherwise =>
    branchMentions first ++ branchesMentions others ++ block (stmtsMentions otherwise)
  | .loop condition body => exprMentions condition ++ block (stmtsMentions body)
  | .count init condition step body =>
    block (declareMentions init ++ exprMentions condition ++ block (stmtsMentions body) ++ assignMentions step)
  | .ret e => exprMentions e

def stmtsMentions : List Tree.Stmt → List Mention
  | [] => []
  | s :: rest => stmtMentions s ++ stmtsMentions rest

def branchMentions : Tree.Branch → List Mention
  | .mk condition body => exprMentions condition ++ block (stmtsMentions body)

def branchesMentions : List Tree.Branch → List Mention
  | [] => []
  | b :: rest => branchMentions b ++ branchesMentions rest

end

def paramMentions (params : List Tree.Variable) : List Mention :=
  params.map fun p => .declares p.name

def functionMentions (f : Tree.Function) : List Mention :=
  paramMentions f.params ++ stmtsMentions f.body

/-! ### Lexical scoping -/

/-- How many blocks are open at the end of a stretch of mentions that were not open at its start. There is no answer if the
stretch closes the block in which it starts. -/
def nesting (stretch : List Mention) : Option Nat :=
  stretch.foldlM Mention.nest 0

/-- How many declarations there are in a stretch of mentions. The declarations of a function are numbered in their order,
so this is the number of a declaration behind the stretch. -/
def sites (stretch : List Mention) : Nat :=
  stretch.countP Mention.isDeclaration

/-- Behind some mentions, the declaration with a number is one of a name in a block that is still open, so many blocks
further out than the innermost one. -/
def Declared (before : List Mention) (name : String) (depth site : Nat) : Prop :=
  ∃ earlier since, before = earlier ++ .declares name :: since ∧ nesting since = some depth ∧ sites earlier = site

/-- Behind some mentions, a name is in scope: it has been declared in a block that is still open. -/
def Visible (before : List Mention) (name : String) : Prop :=
  ∃ depth site, Declared before name depth site

/-- Behind some mentions, the declaration with a number is the latest one of a name in the block at a depth. -/
structure Latest (before : List Mention) (name : String) (depth site : Nat) : Prop where
  declared : Declared before name depth site
  le : ∀ site', Declared before name depth site' → site' ≤ site

/-- Behind some mentions, a name means the declaration with a number: the latest one in the innermost open block that has
one. -/
def Resolves (before : List Mention) (name : String) (site : Nat) : Prop :=
  ∃ depth, Latest before name depth site ∧ ∀ depth' site', Declared before name depth' site' → depth ≤ depth'

section
variable {before : List Mention} {m : Mention} {name : String} {depth site : Nat}

@[simp] theorem sites_nil : sites [] = 0 := rfl

@[simp] theorem sites_append (u v : List Mention) : sites (u ++ v) = sites u + sites v :=
  List.countP_append

@[simp] theorem sites_cons (m : Mention) (v : List Mention) :
    sites (m :: v) = sites v + if m.isDeclaration then 1 else 0 := by
  unfold sites
  rw [List.countP_cons]

theorem nesting_concat (stretch : List Mention) (m : Mention) :
    nesting (stretch ++ [m]) = (nesting stretch).bind fun depth => m.nest depth := by
  unfold nesting
  rw [List.foldlM_append]
  cases List.foldlM Mention.nest 0 stretch <;> simp [bind, pure]

theorem nest_foldlM_add {stretch : List Mention} {start : Nat} (h : stretch.foldlM Mention.nest start = some depth)
    (outer : Nat) : stretch.foldlM Mention.nest (start + outer) = some (depth + outer) := by
  induction stretch generalizing start with
  | nil =>
    cases h
    rfl
  | cons m rest ih =>
    rw [List.foldlM_cons] at h ⊢
    obtain ⟨next, hnext, hrest⟩ := Option.bind_eq_some_iff.mp h
    rw [Mention.nest_add hnext outer]
    exact ih hrest

/-- Blocks that fit a stretch of mentions fit its beginning. -/
theorem nesting_of_append {u v : List Mention} (h : (nesting (u ++ v)).isSome = true) :
    ∃ depth, nesting u = some depth := by
  unfold nesting at h
  rw [List.foldlM_append] at h
  cases hd : List.foldlM Mention.nest 0 u with
  | none => simp [hd] at h
  | some depth => exact ⟨depth, hd⟩

theorem not_declared_nil : ¬Declared [] name depth site := by
  rintro ⟨earlier, since, heq, -⟩
  simp at heq

/-- What is declared behind one more mention: a declaration by the mention itself, or one from before that is still in an
open block. -/
theorem declared_concat :
    Declared (before ++ [m]) name depth site ↔
      (m = .declares name ∧ depth = 0 ∧ site = sites before) ∨
        ∃ depth', Declared before name depth' site ∧ m.nest depth' = some depth := by
  constructor
  · rintro ⟨earlier, since, heq, hnest, hsite⟩
    rcases List.eq_nil_or_concat since with rfl | ⟨since, m', rfl⟩
    · obtain ⟨rfl, hm⟩ := List.append_inj' heq rfl
      simp only [List.cons.injEq, and_true] at hm
      simp only [nesting, List.foldlM_nil, pure, Option.some.injEq] at hnest
      exact Or.inl ⟨hm, hnest.symm, hsite.symm⟩
    · rw [List.concat_eq_append] at heq hnest
      rw [← List.cons_append, ← List.append_assoc] at heq
      obtain ⟨rfl, hm⟩ := List.append_inj' heq rfl
      simp only [List.cons.injEq, and_true] at hm
      subst hm
      rw [nesting_concat, Option.bind_eq_some_iff] at hnest
      obtain ⟨depth', hdepth', hnest⟩ := hnest
      exact Or.inr ⟨depth', ⟨earlier, since, rfl, hdepth', hsite⟩, hnest⟩
  · rintro (⟨rfl, rfl, rfl⟩ | ⟨depth', ⟨earlier, since, rfl, hdepth', hsite⟩, hnest⟩)
    · exact ⟨before, [], rfl, rfl, rfl⟩
    · refine ⟨earlier, since ++ [m], by simp, ?_, hsite⟩
      rw [nesting_concat, hdepth']
      exact hnest

/-- Declarations are numbered in the order in which they are mentioned. -/
theorem Declared.lt_sites (h : Declared before name depth site) : site < sites before := by
  obtain ⟨earlier, since, rfl, -, rfl⟩ := h
  simp [Mention.isDeclaration]

theorem Latest.congr {before' : List Mention} {depth' : Nat}
    (h : ∀ site, Declared before name depth site ↔ Declared before' name depth' site) :
    Latest before name depth site ↔ Latest before' name depth' site := by
  constructor
  · rintro ⟨hdeclared, hle⟩
    exact ⟨(h site).mp hdeclared, fun site' h' => hle site' ((h site').mpr h')⟩
  · rintro ⟨hdeclared, hle⟩
    exact ⟨(h site).mpr hdeclared, fun site' h' => hle site' ((h site').mp h')⟩

/-- A name means one declaration. -/
theorem Resolves.unique {site' : Nat} (h : Resolves before name site) (h' : Resolves before name site') : site = site' := by
  obtain ⟨depth, hlatest, hinnermost⟩ := h
  obtain ⟨depth', hlatest', hinnermost'⟩ := h'
  obtain rfl := Nat.le_antisymm (hinnermost _ _ hlatest'.declared) (hinnermost' _ _ hlatest.declared)
  exact Nat.le_antisymm (hlatest'.le _ hlatest.declared) (hlatest.le _ hlatest'.declared)

end

/-! ### Expressions neither declare nor open blocks -/

/-- Mentions that leave the open blocks and the variables in them as they are. -/
def Plain (mentions : List Mention) : Prop :=
  ∀ m ∈ mentions, m.isPlain = true

namespace Plain
variable {u v : List Mention} {m : Mention}

theorem nil : Plain [] := fun _ hm => absurd hm List.not_mem_nil

theorem append (hu : Plain u) (hv : Plain v) : Plain (u ++ v) :=
  List.forall_mem_append.mpr ⟨hu, hv⟩

theorem cons (hm : m.isPlain = true) (hv : Plain v) : Plain (m :: v) :=
  List.forall_mem_cons.mpr ⟨hm, hv⟩

mutual

/-- An expression opens no block and declares nothing. -/
theorem expr : ∀ e : Tree.Expr, Plain (exprMentions e)
  | .literal _ => nil
  | .path [] => cons rfl nil
  | .path (base :: rest) => (cons rfl (segment base)).append (segments rest)
  | .call _ args => Plain.args args
  | .newArray _ (.one length) => expr length
  | .newArray _ (.two rows columns) => (expr columns).append (expr rows)
  | .newStruct _ => cons rfl nil
  | .binary _ left right => (expr left).append (expr right)
  | .not e => expr e

theorem args : ∀ args : List Tree.Expr, Plain (argsMentions args)
  | [] => nil
  | e :: rest => (expr e).append (args rest)

theorem subscript : ∀ subscript : Tree.Subscript, Plain (subscriptMentions subscript)
  | .one index => expr index
  | .two row column => (expr row).append (expr column)

theorem segment : ∀ segment : Tree.Segment, Plain (segmentMentions segment)
  | .plain _ => nil
  | .indexed _ sub => subscript sub

theorem segments : ∀ segments : List Tree.Segment, Plain (segmentsMentions segments)
  | [] => nil
  | s :: rest => (segment s).append (segments rest)

end

end Plain

/-! ### Trees close the blocks they open -/

/-- Mentions that close just the blocks they open. -/
def Balanced (mentions : List Mention) : Prop :=
  ∀ depth, mentions.foldlM Mention.nest depth = some depth

namespace Balanced
variable {u v : List Mention} {m : Mention}

theorem nil : Balanced [] := fun _ => rfl

theorem append (hu : Balanced u) (hv : Balanced v) : Balanced (u ++ v) := by
  intro depth
  rw [List.foldlM_append, hu depth]
  exact hv depth

theorem single (h : ∀ depth, m.nest depth = some depth) : Balanced [m] := by
  intro depth
  rw [List.foldlM_cons, h depth]
  rfl

theorem cons (h : ∀ depth, m.nest depth = some depth) (hv : Balanced v) : Balanced (m :: v) :=
  append (single h) hv

/-- Around a balanced stretch a block is balanced. -/
theorem block (hu : Balanced u) : Balanced (Scoping.block u) := by
  intro depth
  rw [Scoping.block, List.foldlM_append, List.foldlM_cons]
  show (List.foldlM Mention.nest (depth + 1) u >>= _) = _
  rw [hu]
  rfl

theorem of_plain (h : Plain u) : Balanced u := by
  induction u with
  | nil => exact nil
  | cons m rest ih =>
    obtain ⟨hm, hrest⟩ := List.forall_mem_cons.mp h
    exact cons (fun _ => Mention.nest_plain hm) (ih hrest)

theorem expr (e : Tree.Expr) : Balanced (exprMentions e) := of_plain (.expr e)

theorem assign (a : Tree.Assignment) : Balanced (assignMentions a) := by
  unfold assignMentions
  split
  · exact cons (fun _ => rfl) (expr _)
  · exact (cons (fun _ => rfl) (expr _)).append (single fun _ => rfl)
  · exact ((cons (fun _ => rfl) (of_plain (.segment _))).append (of_plain (.segments _))).append (expr _)

theorem declaration (d : Tree.Declaration) : Balanced (declareMentions d) :=
  (expr d.init).append (single fun _ => rfl)

mutual

/-- A statement closes every block that it opens. -/
theorem stmt : ∀ s : Tree.Stmt, Balanced (stmtMentions s)
  | .declare d => declaration d
  | .assign a => assign a
  | .call _ args => of_plain (.args args)
  | .choose first others otherwise => ((branch first).append (branches others)).append (stmts otherwise).block
  | .loop condition body => (expr condition).append (stmts body).block
  | .count init condition step body =>
    ((((declaration init).append (expr condition)).append (stmts body).block).append (assign step)).block
  | .ret e => expr e

theorem stmts : ∀ stmts : List Tree.Stmt, Balanced (stmtsMentions stmts)
  | [] => nil
  | s :: rest => (stmt s).append (stmts rest)

theorem branch : ∀ b : Tree.Branch, Balanced (branchMentions b)
  | .mk condition body => (expr condition).append (stmts body).block

theorem branches : ∀ bs : List Tree.Branch, Balanced (branchesMentions bs)
  | [] => nil
  | b :: rest => (branch b).append (branches rest)

end

theorem params : ∀ params : List Tree.Variable, Balanced (paramMentions params)
  | [] => nil
  | _ :: rest => cons (fun _ => rfl) (params rest)

theorem function (f : Tree.Function) : Balanced (functionMentions f) :=
  (params f.params).append (stmts f.body)

end Balanced

/-- At every point of a function its outermost block is open. -/
theorem nesting_function {f : Tree.Function} {before behind : List Mention} (h : functionMentions f = before ++ behind) :
    ∃ depth, nesting before = some depth := by
  refine nesting_of_append (v := behind) ?_
  rw [← h, nesting, Balanced.function f 0]
  rfl

/-! ### What is not seen from behind -/

/-- Mentions behind which the same names mean the same as before: the blocks open before them stay open, and no variable
that they declare is in a block open behind them. -/
structure Secluded (stretch : List Mention) : Prop where
  balanced : Balanced stretch
  hidden : ∀ u name v, stretch = u ++ .declares name :: v → nesting v = none

namespace Secluded
variable {stretch before : List Mention} {name : String} {depth site : Nat}

theorem of_plain (h : Plain stretch) : Secluded stretch := by
  refine ⟨.of_plain h, ?_⟩
  rintro u name v rfl
  have hplain := h (.declares name) (by simp)
  cases hplain

/-- A variable declared in a block cannot be seen behind the block: reading on from its declaration, the block is closed. -/
theorem block {body : List Mention} (h : Balanced body) : Secluded (Scoping.block body) := by
  refine ⟨h.block, fun u name v heq => ?_⟩
  rcases List.eq_nil_or_concat v with rfl | ⟨w, m, rfl⟩
  · obtain ⟨-, hlast⟩ := List.append_inj' heq rfl
    cases hlast
  rw [List.concat_eq_append, ← List.cons_append, ← List.append_assoc] at heq
  obtain ⟨hbody, hm⟩ := List.append_inj' heq rfl
  obtain rfl : Mention.closes = m := by simpa using hm
  rcases List.cons_eq_append_iff.mp hbody with ⟨-, hsame⟩ | ⟨u, rfl, rfl⟩
  · cases hsame
  -- The body ends where it began, so that behind the declaration no block is left open to be closed.
  rw [List.concat_eq_append, nesting_concat]
  cases hw : nesting w with
  | none => rfl
  | some depth =>
    have hend := h 0
    rw [List.foldlM_append] at hend
    obtain ⟨outer, -, hrest⟩ := Option.bind_eq_some_iff.mp hend
    have hshift := nest_foldlM_add hw outer
    rw [Nat.zero_add] at hshift
    have hzero : depth + outer = 0 := Option.some.inj (hshift.symm.trans hrest)
    obtain rfl : depth = 0 := by omega
    rfl

/-- What is declared in front of a secluded stretch is declared behind it, at the same depth, and nothing else is. -/
theorem declared_iff (h : Secluded stretch) :
    Declared (before ++ stretch) name depth site ↔ Declared before name depth site := by
  constructor
  · rintro ⟨earlier, since, heq, hnest, hsite⟩
    rcases List.append_eq_append_iff.mp heq with ⟨u, rfl, hstretch⟩ | ⟨v, rfl, hsince⟩
    · rw [h.hidden u name since hstretch] at hnest
      cases hnest
    · rcases List.cons_eq_append_iff.mp hsince with ⟨rfl, hstretch⟩ | ⟨v, rfl, rfl⟩
      · rw [h.hidden [] name since hstretch] at hnest
        cases hnest
      · refine ⟨earlier, v, rfl, ?_, hsite⟩
        rw [nesting, List.foldlM_append] at hnest
        obtain ⟨depth', hdepth', hrest⟩ := Option.bind_eq_some_iff.mp hnest
        rw [h.balanced depth'] at hrest
        cases hrest
        exact hdepth'
  · rintro ⟨earlier, since, rfl, hnest, hsite⟩
    refine ⟨earlier, since ++ stretch, by simp, ?_, hsite⟩
    rw [nesting, List.foldlM_append, ← nesting, hnest]
    exact h.balanced depth

theorem resolves_iff (h : Secluded stretch) : Resolves (before ++ stretch) name site ↔ Resolves before name site := by
  unfold Resolves
  refine exists_congr fun depth => and_congr ?_ ?_
  · exact Latest.congr fun site => h.declared_iff
  · exact forall_congr' fun depth' => forall_congr' fun site' => imp_congr_left h.declared_iff

end Secluded

end Bytecode.Scoping
