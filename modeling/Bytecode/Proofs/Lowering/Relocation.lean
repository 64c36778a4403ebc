import Bytecode.Proofs.Lowering.Emission
import Bytecode.Proofs.Lowering.Loops

/-! Code that can be moved. What a buffer held before does not matter to what is written behind it: the same statement fails in
    the same way, leaves the same scope, and writes the same instructions with the targets of jumps moved along. -/

namespace Bytecode.Lowering

/-! ### The scope does not depend on the code -/

/-- Neither fails nor changes the scope. -/
def Silent {α : Type} (act : Emission α) : Prop :=
  ∀ b, ∃ a b', act b = .ok a b' ∧ b'.scope = b.scope

namespace Silent
variable {α β : Type}

theorem push (i : Instr) : Silent (Emission.push i) :=
  fun _ => ⟨_, _, rfl, rfl⟩

theorem patch (index : Nat) (i : Instr) : Silent (Emission.patch index i) :=
  fun _ => ⟨_, _, rfl, rfl⟩

theorem bind {act : Emission α} {next : α → Emission β} (h : Silent act) (hnext : ∀ a, Silent (next a)) :
    Silent (act >>= next) := by
  intro b
  obtain ⟨a, b₁, hact, hscope⟩ := h b
  obtain ⟨c, b₂, hrest, hscope'⟩ := hnext a b₁
  refine ⟨c, b₂, ?_, hscope'.trans hscope⟩
  show EStateM.bind act next b = .ok c b₂
  unfold EStateM.bind
  rw [hact]
  exact hrest

theorem forM {act : α → Emission Unit} (h : ∀ x, Silent (act x)) (xs : List α) : Silent (xs.forM act) := by
  induction xs with
  | nil => exact fun _ => ⟨_, _, rfl, rfl⟩
  | cons x rest ih => exact bind (h x) fun _ => ih

end Silent

/-- Both succeed or fail alike, with the same scope. -/
def SameOutcome {α β : Type} : EStateM.Result Error Builder α → EStateM.Result Error Builder β → Prop
  | .ok _ b, .ok _ b' => b'.scope = b.scope
  | .error e b, .error e' b' => e' = e ∧ b'.scope = b.scope
  | _, _ => False

/-- Both emissions succeed or both fail with the same error, and they leave the same scope behind. -/
theorem SameOutcome.cases {α β : Type} {x : EStateM.Result Error Builder α} {y : EStateM.Result Error Builder β}
    (h : SameOutcome x y) :
    (∃ a a' b b', x = .ok a b ∧ y = .ok a' b' ∧ b'.scope = b.scope) ∨
      ∃ e b b', x = .error e b ∧ y = .error e b' ∧ b'.scope = b.scope := by
  cases x with
  | ok a b =>
    cases y with
    | ok a' b' => exact Or.inl ⟨a, a', b, b', rfl, rfl, h⟩
    | error e' b' => exact h.elim
  | error e b =>
    cases y with
    | ok a' b' => exact h.elim
    | error e' b' =>
      obtain ⟨rfl, hscope⟩ := h
      exact Or.inr ⟨_, b, b', rfl, rfl, hscope⟩

/-- In the same scope, both do the same to it, whatever code there is. -/
def Alike {α β : Type} (act : Emission α) (act' : Emission β) : Prop :=
  ∀ b b', b'.scope = b.scope → SameOutcome (act b) (act' b')

namespace Alike
variable {α β γ δ : Type} {act : Emission α} {act' : Emission β} {next : α → Emission γ} {next' : β → Emission δ}

/-- Emissions that neither ask nor change the scope are alike, whatever they write. -/
theorem of_silent (h : Silent act) (h' : Silent act') : Alike act act' := by
  intro b b' hscope
  obtain ⟨a, b₁, hact, hscope₁⟩ := h b
  obtain ⟨a', b₁', hact', hscope₁'⟩ := h' b'
  rw [hact, hact']
  exact hscope₁'.trans (hscope.trans hscope₁.symm)

/-- What has been returned does not matter, only the scope does. -/
theorem bind (h : Alike act act') (hnext : ∀ a a', Alike (next a) (next' a')) :
    Alike (act >>= next) (act' >>= next') := by
  intro b b' hscope
  show SameOutcome (EStateM.bind act next b) (EStateM.bind act' next' b')
  unfold EStateM.bind
  rcases (h b b' hscope).cases with ⟨a, a', b₁, b₁', hact, hact', hscope₁⟩ | ⟨e, b₁, b₁', hact, hact', hscope₁⟩
  · rw [hact, hact']
    exact hnext a a' b₁ b₁' hscope₁
  · rw [hact, hact']
    exact ⟨rfl, hscope₁⟩

theorem pure (a : α) (a' : β) : Alike (Pure.pure a : Emission α) (Pure.pure a' : Emission β) :=
  fun _ _ hscope => hscope

theorem throw (e : Error) : Alike (MonadExcept.throw e : Emission α) (MonadExcept.throw e : Emission β) :=
  fun _ _ hscope => ⟨rfl, hscope⟩

theorem push (i i' : Instr) : Alike (Emission.push i) (Emission.push i') :=
  fun _ _ hscope => hscope

theorem here : Alike Emission.here Emission.here :=
  fun _ _ hscope => hscope

theorem reserve (i i' : Instr) : Alike (Emission.reserve i) (Emission.reserve i') :=
  fun _ _ hscope => hscope

theorem patch (index index' : Nat) (i i' : Instr) : Alike (Emission.patch index i) (Emission.patch index' i') :=
  fun _ _ hscope => hscope

theorem aim (index index' : Nat) : Alike (Emission.aim index) (Emission.aim index') :=
  bind here fun _ _ => patch _ _ _ _

theorem closeLoop (start start' exit exit' : Nat) :
    Alike (Emission.closeLoop start exit) (Emission.closeLoop start' exit') :=
  bind (push _ _) fun _ _ => bind here fun _ _ => bind (push _ _) fun _ _ => patch _ _ _ _

theorem pushAll (code code' : List Instr) : Alike (code.forM Emission.push) (code'.forM Emission.push) :=
  of_silent (.forM .push _) (.forM .push _)

theorem patchAll (exits exits' : List Nat) (i i' : Instr) :
    Alike (exits.forM fun index => Emission.patch index i) (exits'.forM fun index => Emission.patch index i') :=
  of_silent (.forM (fun index => .patch index i) _) (.forM (fun index => .patch index i') _)

/-- The same question to the same scope has the same answer. -/
theorem ask (f : Scope → Except Error α) : Alike (Emission.ask f) (Emission.ask f) := by
  intro b b' hscope
  unfold Emission.ask
  rw [hscope]
  cases f b.scope with
  | ok a => exact hscope
  | error e => exact ⟨rfl, hscope⟩

theorem changeScope (f : Scope → Scope) : Alike (Emission.changeScope f) (Emission.changeScope f) :=
  fun _ _ hscope => congrArg f hscope

theorem declare (name : String) : Alike (Emission.declare name) (Emission.declare name) :=
  fun _ _ hscope => congrArg (Scope.declare · name) hscope

theorem inBlock {body body' : Emission Unit} (h : Alike body body') :
    Alike (Emission.inBlock body) (Emission.inBlock body') :=
  bind (changeScope _) fun _ _ => bind h fun _ _ => changeScope _

end Alike

section
variable (layouts : Layouts)

mutual

/-- Whether an expression can be written does not depend on what is there already. -/
theorem emitExpr_alike : ∀ e : Tree.Expr, Alike (emitExpr layouts e) (emitExpr layouts e)
  | .literal _ => by
    unfold emitExpr
    exact .push _ _
  | .path [] => by
    unfold emitExpr
    exact .throw _
  | .path (base :: rest) => by
    unfold emitExpr
    exact .bind (.ask _) fun _ _ => .bind (.push _ _) fun _ _ => .bind (emitElement_alike base) fun _ _ => emitFields_alike rest
  | .call _ args => by
    unfold emitExpr
    exact .bind (emitArgs_alike args) fun _ _ => .push _ _
  | .newArray _ (.one length) => by
    unfold emitExpr
    exact .bind (emitExpr_alike length) fun _ _ => .bind (.push _ _) fun _ _ => .push _ _
  | .newArray _ (.two rows columns) => by
    unfold emitExpr
    exact .bind (emitExpr_alike columns) fun _ _ => .bind (emitExpr_alike rows) fun _ _ =>
      .bind (.push _ _) fun _ _ => .push _ _
  | .newStruct _ => by
    unfold emitExpr
    exact .bind (.ask _) fun _ _ => .pushAll _ _
  | .binary _ left right => by
    unfold emitExpr
    exact .bind (emitExpr_alike left) fun _ _ => .bind (emitExpr_alike right) fun _ _ => .push _ _
  | .not e => by
    unfold emitExpr
    exact .bind (emitExpr_alike e) fun _ _ => .push _ _

theorem emitArgs_alike : ∀ args : List Tree.Expr, Alike (emitArgs layouts args) (emitArgs layouts args)
  | [] => .pure _ _
  | e :: rest => by
    unfold emitArgs
    exact .bind (emitExpr_alike e) fun _ _ => emitArgs_alike rest

theorem emitIndices_alike : ∀ subscript : Tree.Subscript,
    Alike (emitIndices layouts subscript) (emitIndices layouts subscript)
  | .one index => by
    unfold emitIndices
    exact emitExpr_alike index
  | .two row column => by
    unfold emitIndices
    exact .bind (emitExpr_alike row) fun _ _ => emitExpr_alike column

theorem emitElement_alike : ∀ segment : Tree.Segment, Alike (emitElement layouts segment) (emitElement layouts segment)
  | .plain _ => .pure _ _
  | .indexed _ subscript => by
    unfold emitElement
    exact .bind (emitIndices_alike subscript) fun _ _ => .push _ _

theorem emitFields_alike : ∀ segments : List Tree.Segment, Alike (emitFields layouts segments) (emitFields layouts segments)
  | [] => .pure _ _
  | segment :: rest => by
    unfold emitFields
    exact .bind (.push _ _) fun _ _ => .bind (emitElement_alike segment) fun _ _ => emitFields_alike rest

end

theorem emitSetElement_alike (subscript : Tree.Subscript) (value : Tree.Expr) :
    Alike (emitSetElement layouts subscript value) (emitSetElement layouts subscript value) :=
  .bind (emitIndices_alike layouts subscript) fun _ _ => .bind (emitExpr_alike layouts value) fun _ _ => .push _ _

theorem emitSetField_alike (value : Tree.Expr) (segment : Tree.Segment) (rest : List Tree.Segment) :
    Alike (emitSetField layouts value segment rest) (emitSetField layouts value segment rest) := by
  induction rest generalizing segment with
  | nil =>
    cases segment with
    | plain name => exact .bind (emitExpr_alike layouts value) fun _ _ => .push _ _
    | indexed name subscript => exact .bind (.push _ _) fun _ _ => emitSetElement_alike layouts subscript value
  | cons next rest ih =>
    simp only [emitSetField]
    exact .bind (.push _ _) fun _ _ => .bind (emitElement_alike layouts segment) fun _ _ => ih next

theorem emitAssign_alike (a : Tree.Assignment) : Alike (emitAssign layouts a) (emitAssign layouts a) := by
  obtain ⟨target, value⟩ := a
  match target with
  | [] => exact .throw _
  | [.plain name] => exact .bind (.ask _) fun _ _ => .bind (emitExpr_alike layouts value) fun _ _ => .push _ _
  | [.indexed name subscript] =>
    exact .bind (.ask _) fun _ _ => .bind (.push _ _) fun _ _ => emitSetElement_alike layouts subscript value
  | base :: next :: rest =>
    simp only [emitAssign]
    exact .bind (.ask _) fun _ _ => .bind (.push _ _) fun _ _ => .bind (emitElement_alike layouts base) fun _ _ =>
      emitSetField_alike layouts value next rest

theorem emitDeclare_alike (d : Tree.Declaration) : Alike (emitDeclare layouts d) (emitDeclare layouts d) :=
  .bind (emitExpr_alike layouts d.init) fun _ _ => .bind (.declare _) fun _ _ => .push _ _

mutual

/-- Whether a statement can be written does not depend on what is there already, nor on the indices that are patched. -/
theorem emitStmt_alike : ∀ s : Tree.Stmt, Alike (emitStmt layouts s) (emitStmt layouts s)
  | .declare d => by
    unfold emitStmt
    exact emitDeclare_alike layouts d
  | .assign a => by
    unfold emitStmt
    exact emitAssign_alike layouts a
  | .call name args => by
    unfold emitStmt
    refine .bind (emitArgs_alike layouts args) fun _ _ => .bind (.push _ _) fun _ _ => ?_
    split
    · exact .pure _ _
    · exact .push _ _
  | .choose first others otherwise => by
    unfold emitStmt
    refine .bind (emitBranch_alike first) fun _ _ => .bind (emitBranches_alike others _ _ _ _) fun _ _ => ?_
    -- The two runs differ in their indices alone, so they take the same branch here.
    cases otherwise with
    | nil =>
      exact .bind .here fun _ _ => .bind (.push _ _) fun _ _ => .bind (.patch _ _ _ _) fun _ _ => .patchAll _ _ _ _
    | cons s rest =>
      refine .bind (.aim _ _) fun _ _ => .bind (.inBlock (emitStmts_alike (s :: rest))) fun _ _ => ?_
      exact .bind .here fun _ _ => .bind (.push _ _) fun _ _ => .patchAll _ _ _ _
  | .loop condition body => by
    unfold emitStmt
    refine .bind .here fun _ _ => .bind (emitExpr_alike layouts condition) fun _ _ => .bind (.reserve _ _) fun _ _ => ?_
    exact .bind (.inBlock (emitStmts_alike body)) fun _ _ => .closeLoop _ _ _ _
  | .count init condition step body => by
    unfold emitStmt
    refine .bind (.changeScope _) fun _ _ => .bind (emitDeclare_alike layouts init) fun _ _ => ?_
    refine .bind .here fun _ _ => .bind (emitExpr_alike layouts condition) fun _ _ => .bind (.reserve _ _) fun _ _ => ?_
    refine .bind (.inBlock (emitStmts_alike body)) fun _ _ => .bind (emitAssign_alike layouts step) fun _ _ => ?_
    exact .bind (.closeLoop _ _ _ _) fun _ _ => .changeScope _
  | .ret e => by
    unfold emitStmt
    exact .bind (emitExpr_alike layouts e) fun _ _ => .push _ _

theorem emitStmts_alike : ∀ stmts : List Tree.Stmt, Alike (emitStmts layouts stmts) (emitStmts layouts stmts)
  | [] => .pure _ _
  | s :: rest => by
    unfold emitStmts
    exact .bind (emitStmt_alike s) fun _ _ => emitStmts_alike rest

theorem emitBranch_alike : ∀ b : Tree.Branch, Alike (emitBranch layouts b) (emitBranch layouts b)
  | .mk condition body => by
    unfold emitBranch
    refine .bind (emitExpr_alike layouts condition) fun _ _ => .bind (.reserve _ _) fun _ _ => ?_
    exact .bind (.inBlock (emitStmts_alike body)) fun _ _ => .bind (.reserve _ _) fun _ _ => .pure _ _

theorem emitBranches_alike : ∀ (branches : List Tree.Branch) (next next' : Nat) (exits exits' : List Nat),
    Alike (emitBranches layouts next exits branches) (emitBranches layouts next' exits' branches)
  | [], _, _, _, _ => by
    unfold emitBranches
    exact .pure _ _
  | b :: rest, _, _, _, _ => by
    unfold emitBranches
    exact .bind (.aim _ _) fun _ _ => .bind (emitBranch_alike b) fun _ _ => emitBranches_alike rest _ _ _ _

end

end

/-! ### Pieces of code -/

theorem Scope.Renamed.refl {kept : String → Prop} (s : Scope) : s.Renamed kept id s := by
  refine ⟨List.forall₂_same.mpr fun block _ x _ => ?_, fun _ => rfl⟩
  rw [Option.map_id]
  rfl

/-- What can be lowered by itself. -/
inductive Piece where
  | stmt (s : Tree.Stmt)
  | block (stmts : List Tree.Stmt)
  | expr (e : Tree.Expr)

/-- Code was moved to an index: the targets of its jumps are increased by it, and the scope behind it is the same. -/
def Moved (index : Nat) (r r' : List Instr × Scope) : Prop :=
  r'.1 = r.1.map (Instr.rename id (index + ·)) ∧ r'.2 = r.2

namespace Piece

def emit (layouts : Layouts) : Piece → Emission Unit
  | .stmt s => emitStmt layouts s
  | .block stmts => emitBlock layouts stmts
  | .expr e => emitExpr layouts e

/-- The code of a piece at an index, and the scope behind it. -/
def code (layouts : Layouts) (scope : Scope) (start : Nat) : Piece → Except Error (List Instr × Scope)
  | .stmt s => stmtCode layouts scope start s
  | .block stmts => blockCode layouts scope start stmts
  | .expr e => do
    let code ← exprCode layouts scope e
    return (code, scope)

/-- The scope with the variable that the piece declares in the innermost block, if it is a declaration. -/
def declared (scope : Scope) : Piece → Scope
  | .stmt (.declare d) => scope.declare d.var.name
  | _ => scope

/-- How a piece ends that was written behind other code. On success its code at this index stands behind the other code, and the
variables in scope are those from before and the one that it declares. On failure it cannot be lowered. Either way the other
code is still there, and no patch was made but in holes behind it. -/
def Written (piece : Piece) (layouts : Layouts) (scope : Scope) (pre : List Instr) :
    EStateM.Result Error Builder Unit → Prop
  | .ok _ b => ({ scope := scope, code := pre } : Builder).Extends b ∧ (piece.declared scope).Keeps b.scope ∧
      ∃ code, b.code = pre ++ code ∧ piece.code layouts scope pre.length = .ok (code, b.scope)
  | .error e b => ({ scope := scope, code := pre } : Builder).Extends b ∧ piece.code layouts scope pre.length = .error e

variable {layouts : Layouts} {scope : Scope}

/-- Every piece is written as its code says. -/
theorem emit_makes (piece : Piece) (start : Nat) :
    Makes start scope [] (piece.emit layouts) (piece.code layouts scope start) Scoped := by
  cases piece with
  | stmt s => exact emitStmt_makes s scope start
  | block stmts =>
    unfold emit code emitBlock blockCode
    refine .changeScope (.bind rfl (emitStmts_makes stmts _ _) ?_)
    rintro ⟨_, _⟩ _ scope' code ⟨rfl, rfl⟩
    exact .changeScopeLast ⟨rfl, rfl⟩
  | expr e => exact .plainLast (emitExpr_makes e) fun _ => ⟨rfl, rfl⟩

theorem emit_alike (layouts : Layouts) (piece : Piece) : Alike (piece.emit layouts) (piece.emit layouts) := by
  cases piece with
  | stmt s => exact emitStmt_alike layouts s
  | block stmts => exact .inBlock (emitStmts_alike layouts stmts)
  | expr e => exact emitExpr_alike layouts e

/-- A statement other than a declaration leaves the variables in scope as they were. -/
theorem declaredCases (layouts : Layouts) : StmtCases layouts
    (fun scope _ s _ scope' => ((Piece.stmt s).declared scope).Keeps scope')
    (fun _ _ _ _ _ => True) (fun _ _ _ _ _ => True) (fun _ _ _ _ _ => True) where
  declare _ := .refl _
  assign _ := .refl _
  call _ := .refl _
  choose hfirst _ hothers _ hotherwise _ :=
    ((branchCode_keeps hfirst).trans (branchesCode_keeps hothers)).trans (stmtsCode_grows hotherwise).block
  loop _ hbody _ := (stmtsCode_grows hbody).block
  count _ _ hbody _ _ := ((Scope.Grows.declare _ _).trans (stmtsCode_grows hbody).block.grows).block
  ret _ := .refl _
  none _ _ := trivial
  more _ _ _ _ := trivial
  branch _ _ _ := trivial
  noBranches _ _ := trivial
  branches _ _ _ _ := trivial

/-- Behind a piece, the blocks around it are as they were. -/
theorem code_keeps {piece : Piece} {start : Nat} {code : List Instr} {scope' : Scope}
    (h : piece.code layouts scope start = .ok (code, scope')) : (piece.declared scope).Keeps scope' := by
  cases piece with
  | stmt s => exact (declaredCases layouts).stmt h
  | block stmts =>
    simp only [Piece.code, blockCode, Except.bind_eq_ok_iff, Except.pure_eq_ok_iff, Prod.mk.injEq] at h
    obtain ⟨_, hstmts, -, rfl⟩ := h
    exact (stmtsCode_grows hstmts).block
  | expr e =>
    simp only [Piece.code, Except.bind_eq_ok_iff, Except.pure_eq_ok_iff, Prod.mk.injEq] at h
    obtain ⟨_, -, -, rfl⟩ := h
    exact .refl _

/-- The code from an index on is the code from the start on with all jumps moved. -/
theorem code_renamed (piece : Piece) (index : Nat) :
    Agree (Matches (List.map (Instr.rename id (index + ·))) (fun _ => True) id) (piece.code layouts scope 0)
      (piece.code layouts scope index) := by
  have hshifts : Shifts (index + ·) 0 index := fun k => by rw [Nat.zero_add]
  have hsame : scope.Renamed (fun _ => True) id scope := .refl scope
  cases piece with
  | stmt s => exact stmtCode_renamed s hshifts hsame fun _ _ => trivial
  | block stmts =>
    refine (stmtsCode_renamed stmts hshifts hsame.enter fun _ _ => trivial).bind ?_
    rintro r r' hmatches
    exact ⟨hmatches.code, hmatches.scope.leave⟩
  | expr e =>
    have hcode : Agree (fun c c' => c' = c.map (Instr.rename id (index + ·))) (exprCode layouts scope e)
        (exprCode layouts scope e) := by
      nth_rewrite 2 [exprCode_rename (index + ·) e (hsame.maps fun _ _ => trivial)]
      exact .map _ _
    refine hcode.bind ?_
    rintro code _ rfl
    exact ⟨rfl, hsame⟩

theorem emit_written (piece : Piece) (pre : List Instr) :
    piece.Written layouts scope pre (piece.emit layouts { scope := scope, code := pre }) := by
  have hmakes : Makes pre.length scope [] (piece.emit layouts) (piece.code layouts scope pre.length) Scoped :=
    piece.emit_makes pre.length
  have hends := hmakes { scope := scope, code := pre } { scope := scope, code := pre } rfl (.refl _) rfl
    (List.append_nil pre).symm
  cases hemit : piece.emit layouts { scope := scope, code := pre } with
  | ok _ b =>
    rw [hemit] at hends
    obtain ⟨hextends, ⟨_, _⟩, code, hcode, hwritten, rfl, rfl⟩ := hends
    exact ⟨hextends, code_keeps hcode, code, hwritten, hcode⟩
  | error e b =>
    rw [hemit] at hends
    exact hends

end Piece

/-- The same piece was written into an empty buffer and behind other code. Behind it stands the same code with the targets of
its jumps increased, or it has failed with the same error; either way in the same scope. -/
def Relocated (pre : List Instr) :
    EStateM.Result Error Builder Unit → EStateM.Result Error Builder Unit → Prop
  | .ok _ b, .ok _ b' => b'.code = pre ++ b.code.map (Instr.rename id (pre.length + ·)) ∧ b'.scope = b.scope
  | .error e b, .error e' b' => e' = e ∧ b'.scope = b.scope
  | _, _ => False

/-- Code can be moved, and patches are local. A statement, a block or an expression is written behind any code just as into an
empty buffer: it succeeds in the one case if it does in the other, with the same scope, and its code differs by the targets of
jumps alone; or it fails with the same error and in the same scope. The code before it stays as it was, and only holes behind
this code are patched. Nothing but a declaration changes the variables in scope. What is written is the code that lowering gives
at this index. -/
theorem emission_is_relocatable (layouts : Layouts) (piece : Piece) (scope : Scope) (pre : List Instr) :
    Relocated pre (piece.emit layouts { scope := scope }) (piece.emit layouts { scope := scope, code := pre }) ∧
      piece.Written layouts scope pre (piece.emit layouts { scope := scope, code := pre }) ∧
      Agree (Moved pre.length) (piece.code layouts scope 0) (piece.code layouts scope pre.length) := by
  have halone : piece.Written layouts scope [] (piece.emit layouts { scope := scope }) := piece.emit_written []
  have hbehind : piece.Written layouts scope pre (piece.emit layouts { scope := scope, code := pre }) :=
    piece.emit_written pre
  have hrenamed : Agree _ (piece.code layouts scope 0) (piece.code layouts scope pre.length) :=
    piece.code_renamed pre.length
  -- Lowering does not say in which scope it fails, so the scopes are compared in the buffers and the codes as they are lowered.
  rcases (piece.emit_alike layouts { scope := scope } { scope := scope, code := pre } rfl).cases with
    ⟨_, _, b, b', hemit, hemit', hscope⟩ | ⟨e, b, b', hemit, hemit', hscope⟩
  · rw [hemit] at halone
    rw [hemit'] at hbehind
    obtain ⟨-, -, code, hwritten, hcode⟩ := halone
    obtain ⟨-, -, code', hwritten', hcode'⟩ := id hbehind
    rw [List.length_nil] at hcode
    rw [hcode, hcode'] at hrenamed
    have hmoved : code' = code.map (Instr.rename id (pre.length + ·)) := hrenamed.code
    rw [hemit, hemit', hcode, hcode']
    refine ⟨⟨?_, hscope⟩, hbehind, hmoved, hscope⟩
    rw [hwritten, hwritten', hmoved, List.nil_append]
  · rw [hemit] at halone
    rw [hemit'] at hbehind
    have hcode : piece.code layouts scope 0 = .error e := halone.2
    rw [hemit, hemit', hcode, hbehind.2]
    exact ⟨⟨rfl, hscope⟩, hbehind, rfl⟩

/-- A loop behind two instructions, of which the second one looks like a hole. -/
example :
    (Piece.stmt (.loop (.literal (.bool true)) [])).emit {} { scope := .start, code := [.op .nop, .jumpUnless 0] } =
      .ok () { scope := .start
               code := [.op .nop, .jumpUnless 0, .op (.push (.bool true)), .jumpUnless 5, .jump 2, .op .nop]
               patches := [⟨3, some (.jumpUnless 0)⟩] } := rfl

end Bytecode.Lowering
