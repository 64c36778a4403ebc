import Bytecode.Proofs.Lowering.Renaming

/-! Loops with a step. Such a loop is a block in which its variable is declared in front of a plain loop that has the step
    at the end of its body. Inside the body the step sees the variables of the body as well, so the two are the same as long
    as the step uses none of them. -/

namespace Bytecode.Lowering
open Scoping

/-- The code of statements in a block of their own at an index, and the scope behind it. -/
def blockCode (layouts : Layouts) (scope : Scope) (start : Nat) (stmts : List Tree.Stmt) :
    Except Error (List Instr × Scope) := do
  let (code, scope) ← stmtsCode layouts scope.enter start stmts
  return (code, scope.leave)

/-! ### Names that statements do not declare -/

namespace Scope
variable {s t : Scope} {name : String}

theorem find?_congr (h : t.blocks = s.blocks) : t.find? name = s.find? name := by
  unfold find?
  rw [h]

theorem find?_enter (s : Scope) (name : String) : s.enter.find? name = s.find? name := rfl

theorem Keeps.find? (h : s.Keeps t) : t.find? name = s.find? name :=
  find?_congr h.blocks

end Scope

/-- Statements keep the meaning of every name that none of them declares itself. -/
theorem meaningCases (layouts : Layouts) (name : String) : StmtCases layouts
    (fun scope _ s _ scope' => (∀ d, s = .declare d → d.var.name ≠ name) → scope'.find? name = scope.find? name)
    (fun scope _ stmts _ scope' => (∀ d, .declare d ∈ stmts → d.var.name ≠ name) → scope'.find? name = scope.find? name)
    (fun _ _ _ _ _ => True) (fun _ _ _ _ _ => True) where
  declare _ hname := Scope.find?_declare_of_ne (hname _ rfl) _
  assign _ _ := rfl
  call _ _ := rfl
  choose hfirst _ hothers _ hotherwise _ _ :=
    (((branchCode_keeps hfirst).trans (branchesCode_keeps hothers)).trans (stmtsCode_grows hotherwise).block).find?
  loop _ hbody _ _ := (stmtsCode_grows hbody).block.find?
  count _ _ hbody _ _ _ :=
    (((Scope.Grows.declare _ _).trans (stmtsCode_grows hbody).block.grows).block).find?
  ret _ _ := rfl
  none _ _ _ := rfl
  more _ hs _ hrest hname :=
    (hrest fun d hd => hname d (List.mem_cons_of_mem _ hd)).trans (hs fun d hd => hname d (hd ▸ List.mem_cons_self))
  branch _ _ _ := trivial
  noBranches _ _ := trivial
  branches _ _ _ _ := trivial

section
variable {layouts : Layouts} {scope scope' : Scope} {start : Nat} {code : List Instr}

theorem stmtsCode_append (layouts : Layouts) (scope : Scope) (start : Nat) (stmts more : List Tree.Stmt) :
    stmtsCode layouts scope start (stmts ++ more) = (do
      let r ← stmtsCode layouts scope start stmts
      let r' ← stmtsCode layouts r.2 (start + r.1.length) more
      return (r.1 ++ r'.1, r'.2)) := by
  induction stmts generalizing scope start with
  | nil =>
    simp only [List.nil_append, stmtsCode]
    exact (bind_pure (stmtsCode layouts scope start more)).symm
  | cons s rest ih => simp only [List.cons_append, stmtsCode, ih, bind_assoc, pure_bind, List.length_append,
      List.append_assoc, Nat.add_assoc]

/-- Behind the body of a block, a step that uses no variable of the block means the same inside the block and outside. -/
theorem assignCode_leave {body : List Tree.Stmt} {step : Tree.Assignment}
    (hbody : stmtsCode layouts scope.enter start body = .ok (code, scope'))
    (hfree : ∀ d, .declare d ∈ body → d.var.name ∉ names (assignMentions step)) :
    assignCode layouts scope'.leave step = assignCode layouts scope' step := by
  have hmaps : Maps id scope' scope'.leave (assignMentions step) := by
    intro x hx
    have hinside : scope'.find? x = scope.enter.find? x :=
      (meaningCases layouts x).stmts hbody fun d hd heq => hfree d hd (heq ▸ hx)
    have houtside : scope'.leave.find? x = scope.find? x := (stmtsCode_grows hbody).block.find?
    rw [houtside, hinside, Scope.find?_enter, Option.map_id_fun, id]
  rw [assignCode_rename id step hmaps, rename_id, List.map_id_fun, id_map]

end

/-- A loop with a step is lowered as a block that declares its variable and then runs a plain loop with the step at the end
of its body: with the same code and the same scope behind it, or with the same error. The step must not use a variable that
the body declares outside of inner blocks, for behind the body it would mean that one. -/
theorem count_lowers_as_loop (layouts : Layouts) (scope : Scope) (start : Nat) (init : Tree.Declaration)
    (condition : Tree.Expr) (step : Tree.Assignment) (body : List Tree.Stmt)
    (hfree : ∀ d, .declare d ∈ body → d.var.name ∉ names (assignMentions step)) :
    stmtCode layouts scope start (.count init condition step body) =
      blockCode layouts scope start [.declare init, .loop condition (body ++ [.assign step])] := by
  simp only [blockCode, stmtCode, stmtsCode, stmtsCode_append, bind_assoc, pure_bind]
  refine bind_congr fun first => bind_congr fun test => ?_
  cases hbody : stmtsCode layouts first.2.enter (start + first.1.length + test.length + 1) body with
  | error e => rfl
  | ok r =>
    show (do let step ← assignCode layouts r.2.leave step; pure _) = (do let step ← assignCode layouts r.2 step; pure _)
    rw [assignCode_leave hbody hfree]
    simp

/-- Inside of a block, which does not matter, the body declares a variable with a name that the step uses. -/
def stridingBody : List Tree.Stmt := [
  .declare ⟨⟨"t", { name := "int" }⟩, .var "i"⟩,
  .loop (.literal (.bool false)) [.declare ⟨⟨"k", { name := "int" }⟩, .var "t"⟩],
  .print (.var "t")]

def stridingStep : Tree.Assignment :=
  ⟨[.plain "i"], .binary .add (.var "i") (.var "k")⟩

def stridingCode : List Instr := [
  .op (.push (.int 0)), .store 2, .load 2, .load 1, .op (.order .lt), .jumpUnless 28, .load 2, .store 3,
  .op (.push (.bool false)), .jumpUnless 20, .load 3, .store 4, .jump 15, .op .nop, .load 3, .write,
  .load 2, .load 0, .op (.arith .add), .store 2, .jump 9, .op .nop]

theorem striding_lowers_as_loop :
    (∀ d, .declare d ∈ stridingBody → d.var.name ∉ names (assignMentions stridingStep)) ∧
      stmtCode {} ⟨[[("n", 1), ("k", 0)]], 2⟩ 7
        (.count ⟨⟨"i", { name := "int" }⟩, .literal (.int 0)⟩ (.binary .lt (.var "i") (.var "n")) stridingStep stridingBody) =
        .ok (stridingCode, ⟨[[("n", 1), ("k", 0)]], 5⟩) := by
  have hfree : ∀ d, .declare d ∈ stridingBody → d.var.name ∉ names (assignMentions stridingStep) := by
    intro d hd
    simp only [stridingBody, Tree.Stmt.print, List.mem_cons, Tree.Stmt.declare.injEq, List.not_mem_nil, reduceCtorEq,
      or_false] at hd
    subst hd
    decide
  refine ⟨hfree, ?_⟩
  rw [count_lowers_as_loop {} ⟨[[("n", 1), ("k", 0)]], 2⟩ 7 _ _ stridingStep stridingBody hfree]
  rfl

/-- Without the condition, the step may use a variable that is not in scope behind the body. -/
example :
    (stmtCode {} .start 0 (.count ⟨⟨"i", { name := "int" }⟩, .literal (.int 0)⟩ (.var "i") ⟨[.plain "i"], .var "t"⟩
      [.declare ⟨⟨"t", { name := "int" }⟩, .literal .null⟩])).isOk = false ∧
    (blockCode {} .start 0 [.declare ⟨⟨"i", { name := "int" }⟩, .literal (.int 0)⟩,
      .loop (.var "i") [.declare ⟨⟨"t", { name := "int" }⟩, .literal .null⟩, .assign ⟨[.plain "i"], .var "t"⟩]]).isOk = true :=
  ⟨rfl, rfl⟩

end Bytecode.Lowering
