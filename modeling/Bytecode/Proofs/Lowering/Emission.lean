import Bytecode.Proofs.Lowering.Control

/-! Code that is written into a buffer. Instructions are put one after the other behind those that are there already. A jump
    whose target is not known yet is put down as a hole, and patched when the target has been reached. What comes out is the
    code of the statement at the index where the buffer ended (`emitStmt_makes`), and a patch never touches anything but a hole
    that the same statement has put down. -/

namespace Bytecode.Lowering

/-- An instruction was put in the place of another one at an index. -/
structure Patch where
  index : Nat
  replaced : Option Instr

/-- A jump without its target stood at the index. -/
def Patch.FillsHole (p : Patch) : Prop :=
  p.replaced = some (.jump 0) ∨ p.replaced = some (.jumpUnless 0)

/-- The variables in scope, the code so far, and the patches that were made in it, the latest first. -/
structure Builder where
  scope : Scope
  code : List Instr := []
  patches : List Patch := []

/-- Writes code into a buffer. What has been written before a failure stays. -/
abbrev Emission := EStateM Error Builder

namespace Emission

def push (i : Instr) : Emission Unit :=
  fun b => .ok () { b with code := b.code ++ [i] }

/-- The index of the next instruction. -/
def here : Emission Nat :=
  fun b => .ok b.code.length b

/-- Puts down an instruction and returns its index. -/
def reserve (i : Instr) : Emission Nat :=
  fun b => .ok b.code.length { b with code := b.code ++ [i] }

def patch (index : Nat) (i : Instr) : Emission Unit :=
  fun b => .ok () { b with code := b.code.set index i, patches := ⟨index, b.code[index]?⟩ :: b.patches }

/-- Patches a conditional jump to lead to the next instruction. -/
def aim (index : Nat) : Emission Unit := do
  let target ← here
  patch index (.jumpUnless target)

/-- Jumps back to the start of a loop, and patches the jump out of it to lead behind it. -/
def closeLoop (start exit : Nat) : Emission Unit := do
  push (.jump start)
  let last ← here
  push (.op .nop)
  patch exit (.jumpUnless last)

/-- Asks the scope for something that it may not have. -/
def ask {α : Type} (f : Scope → Except Error α) : Emission α :=
  fun b =>
    match f b.scope with
    | .ok a => .ok a b
    | .error e => .error e b

def changeScope (f : Scope → Scope) : Emission Unit :=
  fun b => .ok () { b with scope := f b.scope }

/-- Gives the next slot to a variable and returns it. -/
def declare (name : String) : Emission Nat :=
  fun b => .ok b.scope.next { b with scope := b.scope.declare name }

/-- Writes code in a block of its own, which stays open if this fails. -/
def inBlock (body : Emission Unit) : Emission Unit := do
  changeScope .enter
  body
  changeScope .leave

end Emission

open Emission

/-! ### Expressions and assignments -/

mutual

def emitExpr (layouts : Layouts) : Tree.Expr → Emission Unit
  | .literal l => push (.op (.push (literalValue l)))
  | .path [] => throw .emptyPath
  | .path (base :: rest) => do
    let slot ← ask (·.slot base.name)
    push (.load slot)
    emitElement layouts base
    emitFields layouts rest
  | .call name args => do
    emitArgs layouts args
    push (callInstr name)
  | .newArray _ (.one length) => do
    emitExpr layouts length
    push (.op (.push .null))
    push (.op .newArray)
  | .newArray _ (.two rows columns) => do
    emitExpr layouts columns
    emitExpr layouts rows
    push (.op (.push .null))
    push (.op .newGrid)
  | .newStruct name => do
    let fields ← ask fun _ => layouts.fields name
    (newStructCode fields).forM push
  | .binary op left right => do
    emitExpr layouts left
    emitExpr layouts right
    push (.op (operatorOperation op))
  | .not e => do
    emitExpr layouts e
    push (.op .not)

def emitArgs (layouts : Layouts) : List Tree.Expr → Emission Unit
  | [] => pure ()
  | e :: rest => do
    emitExpr layouts e
    emitArgs layouts rest

def emitIndices (layouts : Layouts) : Tree.Subscript → Emission Unit
  | .one index => emitExpr layouts index
  | .two row column => do
    emitExpr layouts row
    emitExpr layouts column

def emitElement (layouts : Layouts) : Tree.Segment → Emission Unit
  | .plain _ => pure ()
  | .indexed _ subscript => do
    emitIndices layouts subscript
    push (.op (elementGet subscript))

def emitFields (layouts : Layouts) : List Tree.Segment → Emission Unit
  | [] => pure ()
  | segment :: rest => do
    push (.op (.getField segment.name))
    emitElement layouts segment
    emitFields layouts rest

end

def emitSetElement (layouts : Layouts) (subscript : Tree.Subscript) (value : Tree.Expr) : Emission Unit := do
  emitIndices layouts subscript
  emitExpr layouts value
  push (.op (elementSet subscript))

def emitSetField (layouts : Layouts) (value : Tree.Expr) : Tree.Segment → List Tree.Segment → Emission Unit
  | .plain name, [] => do
    emitExpr layouts value
    push (.op (.setField name))
  | .indexed name subscript, [] => do
    push (.op (.getField name))
    emitSetElement layouts subscript value
  | segment, next :: rest => do
    push (.op (.getField segment.name))
    emitElement layouts segment
    emitSetField layouts value next rest

def emitAssign (layouts : Layouts) (a : Tree.Assignment) : Emission Unit :=
  match a.target with
  | [] => throw .emptyPath
  | [.plain name] => do
    let slot ← ask (·.slot name)
    emitExpr layouts a.value
    push (.store slot)
  | [.indexed name subscript] => do
    let slot ← ask (·.slot name)
    push (.load slot)
    emitSetElement layouts subscript a.value
  | base :: next :: rest => do
    let slot ← ask (·.slot base.name)
    push (.load slot)
    emitElement layouts base
    emitSetField layouts a.value next rest

/-! ### Statements -/

def emitDeclare (layouts : Layouts) (d : Tree.Declaration) : Emission Unit := do
  emitExpr layouts d.init
  let slot ← Emission.declare d.var.name
  push (.store slot)

mutual

def emitStmt (layouts : Layouts) : Tree.Stmt → Emission Unit
  | .declare d => emitDeclare layouts d
  | .assign a => emitAssign layouts a
  | .call name args => do
    emitArgs layouts args
    push (callInstr name)
    if name = "print" then pure () else push (.op .pop)
  | .choose first others otherwise => do
    let (next, exit) ← emitBranch layouts first
    let (next, exits) ← emitBranches layouts next [exit] others
    if otherwise.isEmpty then
      let exit ← here
      push (.op .nop)
      patch next (.jumpUnless exit)
      exits.forM fun index => patch index (.jump exit)
    else
      aim next
      inBlock (emitStmts layouts otherwise)
      let exit ← here
      push (.op .nop)
      exits.forM fun index => patch index (.jump exit)
  | .loop condition body => do
    let start ← here
    emitExpr layouts condition
    let exit ← reserve (.jumpUnless 0)
    inBlock (emitStmts layouts body)
    closeLoop start exit
  | .count init condition step body => do
    changeScope .enter
    emitDeclare layouts init
    let start ← here
    emitExpr layouts condition
    let exit ← reserve (.jumpUnless 0)
    inBlock (emitStmts layouts body)
    emitAssign layouts step
    closeLoop start exit
    changeScope .leave
  | .ret e => do
    emitExpr layouts e
    push .ret

def emitStmts (layouts : Layouts) : List Tree.Stmt → Emission Unit
  | [] => pure ()
  | s :: rest => do
    emitStmt layouts s
    emitStmts layouts rest

/-- Writes a condition and a body, and returns the indices of their two holes: that of the jump over the body if the condition
fails, and that of the jump behind the body. -/
def emitBranch (layouts : Layouts) : Tree.Branch → Emission (Nat × Nat)
  | .mk condition body => do
    emitExpr layouts condition
    let next ← reserve (.jumpUnless 0)
    inBlock (emitStmts layouts body)
    let exit ← reserve (.jump 0)
    return (next, exit)

/-- Writes branches one after the other. The hole of the branch before is patched at the start of each, and the holes behind
the bodies are collected. -/
def emitBranches (layouts : Layouts) (next : Nat) (exits : List Nat) : List Tree.Branch → Emission (Nat × List Nat)
  | [] => return (next, exits)
  | b :: rest => do
    aim next
    let (next, exit) ← emitBranch layouts b
    emitBranches layouts next (exits ++ [exit]) rest

end

/-- Writes statements in a block of their own. -/
def emitBlock (layouts : Layouts) (stmts : List Tree.Stmt) : Emission Unit :=
  inBlock (emitStmts layouts stmts)

/-! ### What comes out -/

/-- Code has only been put behind the code of a builder, and nothing was patched in but in holes of this new code. -/
structure Builder.Extends (base b : Builder) : Prop where
  code : base.code <+: b.code
  patches : ∃ new, b.patches = new ++ base.patches ∧ ∀ p ∈ new, base.code.length ≤ p.index ∧ p.FillsHole

namespace Builder.Extends
variable {b b' b'' : Builder}

theorem refl (b : Builder) : b.Extends b :=
  ⟨List.prefix_refl _, [], rfl, nofun⟩

/-- Nothing is patched in the code of the first builder, for the later holes lie behind it. -/
theorem trans (h : b.Extends b') (h' : b'.Extends b'') : b.Extends b'' := by
  obtain ⟨new, hpatches, hnew⟩ := h.patches
  obtain ⟨new', hpatches', hnew'⟩ := h'.patches
  refine ⟨h.code.trans h'.code, new' ++ new, by rw [hpatches', hpatches, List.append_assoc], ?_⟩
  rw [List.forall_mem_append]
  exact ⟨fun p hp => ⟨Nat.le_trans h.code.length_le (hnew' p hp).1, (hnew' p hp).2⟩, hnew⟩

/-- More code, and any scope. -/
theorem more (h : b.Extends b') (scope : Scope) (code : List Instr) :
    b.Extends { b' with scope := scope, code := b'.code ++ code } :=
  ⟨h.code.trans (List.prefix_append _ _), h.patches⟩

end Builder.Extends

/-- How an emission ends for which the code is known that it should write. It writes this code behind that of a builder, or it
fails with the same error; either way it only extends the builder. -/
def Ends {α β : Type} (base : Builder) (x : Except Error β) (good : β → α → Scope → List Instr → Prop) :
    EStateM.Result Error Builder α → Prop
  | .ok a b => base.Extends b ∧ ∃ r code, x = .ok r ∧ b.code = base.code ++ code ∧ good r a b.scope code
  | .error e b => base.Extends b ∧ x = .error e

/-- Behind some code that was written from an index on, an emission writes the rest of the code that it should write. -/
def Makes {α β : Type} (start : Nat) (scope : Scope) (done : List Instr) (act : Emission α) (x : Except Error β)
    (good : β → α → Scope → List Instr → Prop) : Prop :=
  ∀ base b : Builder, base.code.length = start → base.Extends b → b.scope = scope → b.code = base.code ++ done →
    Ends base x good (act b)

/-- The code of an expression or an assignment, which leaves the scope as it was. -/
def Plain (scope : Scope) (code : List Instr) (_ : Unit) (scope' : Scope) (written : List Instr) : Prop :=
  scope' = scope ∧ written = code

/-- The code of a statement, and the scope behind it. -/
def Scoped (r : List Instr × Scope) (_ : Unit) (scope' : Scope) (written : List Instr) : Prop :=
  scope' = r.2 ∧ written = r.1

namespace Makes
variable {α β γ δ : Type} {start index : Nat} {scope : Scope} {done code front back : List Instr} {i hole : Instr}
  {x : Except Error β} {good : β → α → Scope → List Instr → Prop}

theorem pure {r : β} {a : α} (h : good r a scope done) : Makes start scope done (Pure.pure a) (Pure.pure r) good := by
  intro base b _ hextends hscope hcode
  exact ⟨hextends, r, done, rfl, hcode, hscope ▸ h⟩

theorem throw {e : Error} : Makes start scope done (MonadExcept.throw e) (Except.error e) good :=
  fun _ _ _ hextends _ _ => ⟨hextends, rfl⟩

/-- What comes next is written behind what has been written, in the scope that was left. -/
theorem andThen {act : Emission γ} {next : γ → Emission α} {y : Except Error δ} {k : δ → Except Error β}
    {good' : δ → γ → Scope → List Instr → Prop} (h : Makes start scope done act y good')
    (hnext : ∀ r a scope' written, good' r a scope' written → Makes start scope' written (next a) (k r) good) :
    Makes start scope done (act >>= next) (y >>= k) good := by
  intro base b hstart hextends hscope hcode
  have hends := h base b hstart hextends hscope hcode
  show Ends base (y >>= k) good (EStateM.bind act next b)
  unfold EStateM.bind
  cases hact : act b with
  | error e b' =>
    rw [hact] at hends
    obtain ⟨hextends', rfl⟩ := hends
    exact ⟨hextends', rfl⟩
  | ok a b' =>
    rw [hact] at hends
    obtain ⟨hextends', r, written, rfl, hcode', hgood⟩ := hends
    exact hnext r a b'.scope written hgood base b' hstart hextends' rfl hcode'

/-- The code of the whole may differ from that of its last part, even if nothing more is written. -/
theorem andThenPure {act : Emission α} {y : Except Error δ} {k : δ → Except Error β}
    {good' : δ → α → Scope → List Instr → Prop} (h : Makes start scope done act y good')
    (hlast : ∀ r a scope' written, good' r a scope' written → Makes start scope' written (Pure.pure a) (k r) good) :
    Makes start scope done act (y >>= k) good := by
  rw [← bind_pure act]
  exact andThen h hlast

/-- What is written by itself can be written behind other code. -/
theorem behind {act : Emission α} (hindex : start + done.length = index) (h : Makes index scope [] act x good) :
    Makes start scope done act x fun r a scope' written => ∃ code, written = done ++ code ∧ good r a scope' code := by
  intro base b hstart hextends hscope hcode
  have hlength : b.code.length = index := by rw [hcode, List.length_append, hstart, hindex]
  have hends := h b b hlength (.refl b) hscope (List.append_nil _).symm
  cases hact : act b with
  | error e b' =>
    rw [hact] at hends
    exact ⟨hextends.trans hends.1, hends.2⟩
  | ok a b' =>
    rw [hact] at hends
    obtain ⟨hextends', r, code, hx, hcode', hgood⟩ := hends
    refine ⟨hextends.trans hextends', r, done ++ code, hx, ?_, code, rfl, hgood⟩
    rw [hcode', hcode, List.append_assoc]

/-- A part that is written by itself, and what comes behind it. -/
theorem bind {act : Emission γ} {next : γ → Emission α} {y : Except Error δ} {k : δ → Except Error β}
    {good' : δ → γ → Scope → List Instr → Prop} (hindex : start + done.length = index)
    (h : Makes index scope [] act y good')
    (hnext : ∀ r a scope' code, good' r a scope' code → Makes start scope' (done ++ code) (next a) (k r) good) :
    Makes start scope done (act >>= next) (y >>= k) good := by
  refine andThen (behind hindex h) ?_
  rintro r a scope' _ ⟨code, rfl, hgood⟩
  exact hnext r a scope' code hgood

/-- An expression or an assignment, and what comes behind it. -/
theorem plain {act : Emission Unit} {next : Emission α} {y : Except Error (List Instr)} {k : List Instr → Except Error β}
    (h : ∀ start, Makes start scope [] act y (Plain scope))
    (hnext : ∀ code, Makes start scope (done ++ code) next (k code) good) :
    Makes start scope done (act >>= fun _ => next) (y >>= k) good := by
  refine bind rfl (h _) ?_
  rintro _ _ _ code ⟨rfl, rfl⟩
  exact hnext code

/-- An expression or an assignment with nothing behind it. -/
theorem plainLast {good : β → Unit → Scope → List Instr → Prop} {act : Emission Unit} {y : Except Error (List Instr)}
    {f : List Instr → β} (h : ∀ start, Makes start scope [] act y (Plain scope))
    (hlast : ∀ code, good (f code) () scope (done ++ code)) :
    Makes start scope done act (y >>= fun code => Pure.pure (f code)) good := by
  rw [← bind_pure act]
  exact plain h fun code => pure (hlast code)

/-- An instruction that is put down belongs to the code so far. -/
theorem push {next : Emission α} (h : Makes start scope (done ++ [i]) next x good) :
    Makes start scope done (Emission.push i >>= fun _ => next) x good := by
  intro base b hstart hextends hscope hcode
  refine h base { b with code := b.code ++ [i] } hstart (hextends.more b.scope [i]) hscope ?_
  show b.code ++ [i] = _
  rw [hcode, List.append_assoc]

theorem last {good : β → Unit → Scope → List Instr → Prop} {r : β} (h : good r () scope (done ++ [i])) :
    Makes start scope done (Emission.push i) (Pure.pure r) good := by
  have hpush : Makes start scope done (Emission.push i >>= fun _ => Pure.pure ()) (Pure.pure r) good := push (pure h)
  exact hpush

theorem pushAll {good : β → Unit → Scope → List Instr → Prop} {r : β} (h : good r () scope (done ++ code)) :
    Makes start scope done (code.forM Emission.push) (Pure.pure r) good := by
  induction code generalizing done with
  | nil =>
    rw [List.append_nil] at h
    exact pure h
  | cons i code ih =>
    have hrest : Makes start scope (done ++ [i]) (code.forM Emission.push) (Pure.pure r) good := by
      refine ih ?_
      rw [List.append_assoc]
      exact h
    exact push hrest

/-- The next index is known from the length of the code so far. -/
theorem here {next : Nat → Emission α} (hindex : start + done.length = index)
    (h : Makes start scope done (next index) x good) : Makes start scope done (Emission.here >>= next) x good := by
  intro base b hstart hextends hscope hcode
  have hlength : b.code.length = index := by rw [hcode, List.length_append, hstart, hindex]
  show Ends base x good (next b.code.length b)
  rw [hlength]
  exact h base b hstart hextends hscope hcode

theorem reserve {next : Nat → Emission α} (hindex : start + done.length = index)
    (h : Makes start scope (done ++ [i]) (next index) x good) :
    Makes start scope done (Emission.reserve i >>= next) x good := by
  show Makes start scope done (Emission.here >>= fun n => Emission.push i >>= fun _ => next n) x good
  exact here hindex (push h)

/-- An emission that asks in vain fails with the error that the code has. -/
theorem ask {f : Scope → Except Error γ} {next : γ → Emission α} {k : γ → Except Error β}
    (h : ∀ a, Makes start scope done (next a) (k a) good) :
    Makes start scope done (Emission.ask f >>= next) (f scope >>= k) good := by
  intro base b hstart hextends hscope hcode
  show Ends base (f scope >>= k) good (EStateM.bind (Emission.ask f) next b)
  unfold EStateM.bind Emission.ask
  rw [hscope]
  cases f scope with
  | error e => exact ⟨hextends, rfl⟩
  | ok a => exact h a base b hstart hextends hscope hcode

theorem changeScope {f : Scope → Scope} {next : Emission α} (h : Makes start (f scope) done next x good) :
    Makes start scope done (Emission.changeScope f >>= fun _ => next) x good := by
  rintro base b hstart hextends rfl hcode
  exact h base { b with scope := f b.scope } hstart ⟨hextends.code, hextends.patches⟩ rfl hcode

theorem changeScopeLast {good : β → Unit → Scope → List Instr → Prop} {r : β} {f : Scope → Scope}
    (h : good r () (f scope) done) :
    Makes start scope done (Emission.changeScope f) (Pure.pure r) good := by
  rw [← bind_pure (Emission.changeScope f)]
  exact changeScope (pure h)

theorem declare {name : String} {next : Nat → Emission α}
    (h : Makes start (scope.declare name) done (next scope.next) x good) :
    Makes start scope done (Emission.declare name >>= next) x good := by
  rintro base b hstart hextends rfl hcode
  exact h base { b with scope := b.scope.declare name } hstart ⟨hextends.code, hextends.patches⟩ rfl hcode

/-- A patch in a hole of the code that was written. -/
theorem patch {next : Emission α} (hhole : hole = .jump 0 ∨ hole = .jumpUnless 0) (hindex : start + front.length = index)
    (h : Makes start scope (front ++ i :: back) next x good) :
    Makes start scope (front ++ hole :: back) (Emission.patch index i >>= fun _ => next) x good := by
  intro base b hstart hextends hscope hcode
  have hfront : (base.code ++ front).length = index := by rw [List.length_append, hstart, hindex]
  rw [← List.append_assoc] at hcode
  have hset : b.code.set index i = base.code ++ (front ++ i :: back) := by
    rw [hcode, ← hfront, List.set_append_right _ _ (Nat.le_refl _), Nat.sub_self, List.set_cons_zero, List.append_assoc]
  have hget : b.code[index]? = some hole := by
    rw [hcode, ← hfront, List.getElem?_append_right (Nat.le_refl _), Nat.sub_self, List.getElem?_cons_zero]
  obtain ⟨new, hpatches, hnew⟩ := hextends.patches
  refine h base { b with code := b.code.set index i, patches := ⟨index, b.code[index]?⟩ :: b.patches } hstart ⟨?_, ?_⟩
    hscope hset
  · rw [hset]
    exact List.prefix_append _ _
  · refine ⟨⟨index, b.code[index]?⟩ :: new, by rw [hpatches, List.cons_append], ?_⟩
    rw [List.forall_mem_cons]
    refine ⟨⟨?_, ?_⟩, hnew⟩
    · rw [hstart, ← hindex]
      exact Nat.le_add_right _ _
    · unfold Patch.FillsHole
      rw [hget, Option.some.injEq, Option.some.injEq]
      exact hhole

/-- A body is written in a scope of its own, which is left behind it. -/
theorem inBlock {body : Emission Unit} {next : Emission α} {y : Except Error (List Instr × Scope)}
    {k : List Instr × Scope → Except Error β} (hindex : start + done.length = index)
    (h : Makes index scope.enter [] body y Scoped)
    (hnext : ∀ code scope', Makes start scope'.leave (done ++ code) next (k (code, scope')) good) :
    Makes start scope done (Emission.inBlock body >>= fun _ => next) (y >>= k) good := by
  rw [Emission.inBlock, bind_assoc]
  refine changeScope ?_
  rw [bind_assoc]
  refine bind hindex h ?_
  rintro ⟨_, _⟩ _ scope' code ⟨rfl, rfl⟩
  exact changeScope (hnext code scope')

end Makes

section
variable {layouts : Layouts} {scope : Scope}

mutual

/-- What is written for an expression is its code, wherever it stands. -/
theorem emitExpr_makes : ∀ (e : Tree.Expr) (start : Nat),
    Makes start scope [] (emitExpr layouts e) (exprCode layouts scope e) (Plain scope)
  | .literal l, _ => by
    unfold emitExpr exprCode
    exact .last ⟨rfl, rfl⟩
  | .path [], _ => by
    unfold emitExpr exprCode
    exact .throw
  | .path (base :: rest), _ => by
    unfold emitExpr exprCode
    refine .ask fun slot => .push (.plain (emitElement_makes base) fun element => ?_)
    exact .plainLast (emitFields_makes rest) fun fields => ⟨rfl, by simp⟩
  | .call name args, _ => by
    unfold emitExpr exprCode
    exact .plain (emitArgs_makes args) fun code => .last ⟨rfl, rfl⟩
  | .newArray _ (.one length), _ => by
    unfold emitExpr exprCode
    exact .plain (emitExpr_makes length) fun code => .push (.last ⟨rfl, by simp⟩)
  | .newArray _ (.two rows columns), _ => by
    unfold emitExpr exprCode
    refine .plain (emitExpr_makes columns) fun code => .plain (emitExpr_makes rows) fun code' => ?_
    exact .push (.last ⟨rfl, by simp⟩)
  | .newStruct name, _ => by
    unfold emitExpr exprCode
    exact .ask fun fields => .pushAll ⟨rfl, rfl⟩
  | .binary op left right, _ => by
    unfold emitExpr exprCode
    exact .plain (emitExpr_makes left) fun code => .plain (emitExpr_makes right) fun code' => .last ⟨rfl, rfl⟩
  | .not e, _ => by
    unfold emitExpr exprCode
    exact .plain (emitExpr_makes e) fun code => .last ⟨rfl, rfl⟩

theorem emitArgs_makes : ∀ (args : List Tree.Expr) (start : Nat),
    Makes start scope [] (emitArgs layouts args) (argsCode layouts scope args) (Plain scope)
  | [], _ => .pure ⟨rfl, rfl⟩
  | e :: rest, _ => by
    unfold emitArgs argsCode
    exact .plain (emitExpr_makes e) fun code => .plainLast (emitArgs_makes rest) fun code' => ⟨rfl, rfl⟩

theorem emitIndices_makes : ∀ (subscript : Tree.Subscript) (start : Nat),
    Makes start scope [] (emitIndices layouts subscript) (indicesCode layouts scope subscript) (Plain scope)
  | .one index, start => by
    unfold emitIndices indicesCode
    exact emitExpr_makes index start
  | .two row column, _ => by
    unfold emitIndices indicesCode
    exact .plain (emitExpr_makes row) fun code => .plainLast (emitExpr_makes column) fun code' => ⟨rfl, rfl⟩

theorem emitElement_makes : ∀ (segment : Tree.Segment) (start : Nat),
    Makes start scope [] (emitElement layouts segment) (elementCode layouts scope segment) (Plain scope)
  | .plain _, _ => .pure ⟨rfl, rfl⟩
  | .indexed _ subscript, _ => by
    unfold emitElement elementCode
    exact .plain (emitIndices_makes subscript) fun code => .last ⟨rfl, rfl⟩

theorem emitFields_makes : ∀ (segments : List Tree.Segment) (start : Nat),
    Makes start scope [] (emitFields layouts segments) (fieldsCode layouts scope segments) (Plain scope)
  | [], _ => .pure ⟨rfl, rfl⟩
  | segment :: rest, _ => by
    unfold emitFields fieldsCode
    refine .push (.plain (emitElement_makes segment) fun element => ?_)
    exact .plainLast (emitFields_makes rest) fun code => ⟨rfl, rfl⟩

end

theorem emitSetElement_makes (subscript : Tree.Subscript) (value : Tree.Expr) (start : Nat) :
    Makes start scope [] (emitSetElement layouts subscript value) (setElementCode layouts scope subscript value)
      (Plain scope) := by
  unfold emitSetElement setElementCode
  exact .plain (emitIndices_makes subscript) fun code => .plain (emitExpr_makes value) fun code' => .last ⟨rfl, rfl⟩

theorem emitSetField_makes (value : Tree.Expr) (segment : Tree.Segment) (rest : List Tree.Segment) (start : Nat) :
    Makes start scope [] (emitSetField layouts value segment rest) (setFieldCode layouts scope value segment rest)
      (Plain scope) := by
  induction rest generalizing segment start with
  | nil =>
    cases segment with
    | plain name =>
      unfold emitSetField setFieldCode
      exact .plain (emitExpr_makes value) fun code => .last ⟨rfl, rfl⟩
    | indexed name subscript =>
      unfold emitSetField setFieldCode
      exact .push (.plainLast (emitSetElement_makes subscript value) fun code => ⟨rfl, rfl⟩)
  | cons next rest ih =>
    simp only [emitSetField, setFieldCode]
    refine .push (.plain (emitElement_makes segment) fun element => ?_)
    exact .plainLast (ih next) fun code => ⟨rfl, rfl⟩

/-- What is written for an assignment is its code. -/
theorem emitAssign_makes (a : Tree.Assignment) (start : Nat) :
    Makes start scope [] (emitAssign layouts a) (assignCode layouts scope a) (Plain scope) := by
  obtain ⟨target, value⟩ := a
  match target with
  | [] => exact .throw
  | [.plain name] => exact .ask fun slot => .plain (emitExpr_makes value) fun code => .last ⟨rfl, rfl⟩
  | [.indexed name subscript] =>
    exact .ask fun slot => .push (.plainLast (emitSetElement_makes subscript value) fun code => ⟨rfl, rfl⟩)
  | base :: next :: rest =>
    simp only [emitAssign, assignCode]
    refine .ask fun slot => .push (.plain (emitElement_makes base) fun element => ?_)
    exact .plainLast (emitSetField_makes value next rest) fun code => ⟨rfl, by simp⟩

theorem emitDeclare_makes (d : Tree.Declaration) (start : Nat) :
    Makes start scope [] (emitDeclare layouts d) (declareCode layouts scope d) Scoped := by
  unfold emitDeclare declareCode
  exact .plain (emitExpr_makes d.init) fun code => .declare (.last ⟨rfl, rfl⟩)

end

/-! ### Branches in the making -/

/-- The code of a branch with its two holes. -/
def openBranch (branch : List Instr × List Instr) : List Instr :=
  branch.1 ++ .jumpUnless 0 :: branch.2 ++ [.jump 0]

/-- A branch has been written from an index on, and the indices of its holes were returned. -/
def Opened (start : Nat) (r : (List Instr × List Instr) × Scope) (holes : Nat × Nat) (scope' : Scope)
    (written : List Instr) : Prop :=
  scope' = r.2 ∧ written = openBranch r.1 ∧
    holes = (start + r.1.1.length, start + r.1.1.length + r.1.2.length + 1)

/-- The indices of the jumps to the exit. -/
def chainExits (start : Nat) : List (List Instr × List Instr) → List Nat
  | [] => []
  | (condition, body) :: rest =>
    (start + condition.length + body.length + 1) :: chainExits (start + condition.length + body.length + 2) rest

/-- The code of branches whose exit is not known yet. The conditional jump of the last one, at the index `next`, is a hole
too. -/
def Unfinished (start : Nat) (chain : List (List Instr × List Instr)) (next : Nat) (written : List Instr) : Prop :=
  ∃ front back, chainCode start 0 chain = front ++ .jumpUnless (start + chainLength chain) :: back ∧
    written = front ++ .jumpUnless 0 :: back ∧ start + front.length = next

section
variable {start next : Nat} {chain : List (List Instr × List Instr)} {written : List Instr}

theorem chainLength_append (chain more : List (List Instr × List Instr)) :
    chainLength (chain ++ more) = chainLength chain + chainLength more := by
  rw [← length_chainCode 0 0, chainCode_append, List.length_append, length_chainCode, length_chainCode]

theorem chainExits_append (start : Nat) (chain more : List (List Instr × List Instr)) :
    chainExits start (chain ++ more) = chainExits start chain ++ chainExits (start + chainLength chain) more := by
  induction chain generalizing start with
  | nil => rfl
  | cons branch rest ih =>
    rw [List.cons_append, chainExits, ih, chainExits, List.cons_append, chainLength]
    simp only [Nat.add_assoc]

theorem Unfinished.length (h : Unfinished start chain next written) : written.length = chainLength chain := by
  obtain ⟨front, back, hchain, rfl, -⟩ := h
  rw [← length_chainCode start 0 chain, hchain, List.length_append, List.length_append, List.length_cons, List.length_cons]

/-- Another branch behind branches that lead to it. -/
theorem unfinished_concat (start : Nat) (chain : List (List Instr × List Instr)) (branch : List Instr × List Instr) :
    Unfinished start (chain ++ [branch]) (start + chainLength chain + branch.1.length)
      (chainCode start 0 chain ++ openBranch branch) := by
  refine ⟨chainCode start 0 chain ++ branch.1, branch.2 ++ [.jump 0], ?_, ?_, ?_⟩
  · rw [chainCode_append, chainLength_append]
    simp [chainCode, chainLength, Nat.add_assoc]
  · simp [openBranch]
  · rw [List.length_append, length_chainCode, Nat.add_assoc]

end

namespace Makes
variable {α β : Type} {start next : Nat} {scope : Scope} {done : List Instr} {x : Except Error β}
  {chain : List (List Instr × List Instr)}

/-- When the next branch or the exit has been reached, the conditional jump of the last branch is patched. -/
theorem patchNext {good : β → α → Scope → List Instr → Prop} {act : Emission α} {back : List Instr}
    (hopen : Unfinished start chain next done) (h : Makes start scope (chainCode start 0 chain ++ back) act x good) :
    Makes start scope (done ++ back) (Emission.patch next (.jumpUnless (start + chainLength chain)) >>= fun _ => act) x
      good := by
  obtain ⟨front, rest, hchain, rfl, hnext⟩ := hopen
  rw [hchain, List.append_assoc, List.cons_append] at h
  rw [List.append_assoc, List.cons_append]
  exact patch (Or.inr rfl) hnext h

/-- Where a branch ends, the hole of the condition before it is filled. -/
theorem aim {good : β → α → Scope → List Instr → Prop} {act : Emission α} (hopen : Unfinished start chain next done)
    (h : Makes start scope (chainCode start 0 chain) act x good) :
    Makes start scope done (Emission.aim next >>= fun _ => act) x good := by
  have hlength : start + done.length = start + chainLength chain := by rw [hopen.length]
  rw [← List.append_nil (chainCode start 0 chain)] at h
  rw [Emission.aim, bind_assoc]
  refine here hlength ?_
  rw [← List.append_nil done]
  exact patchNext hopen h

/-- When the exit is known, the jumps to it are patched one after the other. -/
theorem patchExits {good : β → Unit → Scope → List Instr → Prop} {r : β} {exit : Nat} (front : List Instr)
    {back : List Instr} (h : good r () scope (front ++ (chainCode (start + front.length) exit chain ++ back))) :
    Makes start scope (front ++ (chainCode (start + front.length) 0 chain ++ back))
      ((chainExits (start + front.length) chain).forM fun index => Emission.patch index (.jump exit)) (Pure.pure r) good := by
  induction chain generalizing front with
  | nil => exact pure h
  | cons branch rest ih =>
    -- The jump stands behind code that does not depend on the exit.
    obtain ⟨before, hbefore, hsplit⟩ : ∃ before : List Instr,
        start + before.length = start + front.length + branch.1.length + branch.2.length + 1 ∧
        ∀ target, front ++ (chainCode (start + front.length) target (branch :: rest) ++ back) =
          before ++ .jump target :: (chainCode (start + before.length + 1) target rest ++ back) := by
      refine ⟨front ++ (branch.1 ++ .jumpUnless (start + front.length + branch.1.length + branch.2.length + 2) :: branch.2),
        ?_, fun target => ?_⟩
      · simp only [List.length_append, List.length_cons]
        omega
      · simp [chainCode, Nat.add_assoc]
    have hrest : start + before.length + 1 = start + (before ++ [Instr.jump exit]).length := by
      rw [List.length_append]
      rfl
    have hexits : chainExits (start + front.length) (branch :: rest) =
        (start + before.length) :: chainExits (start + (before ++ [Instr.jump exit]).length) rest := by
      rw [chainExits, ← hrest, hbefore]
    rw [hsplit, hrest, List.append_cons] at h
    rw [hsplit, hexits]
    refine patch (Or.inl rfl) rfl ?_
    rw [hrest, List.append_cons]
    exact ih _ h

/-- The end of a loop whose jump out of it is a hole. -/
theorem closeLoop {good : β → α → Scope → List Instr → Prop} {act : Emission α} {front condition body : List Instr}
    {loop exit : Nat} (hdone : done = front ++ (condition ++ .jumpUnless 0 :: body)) (hloop : start + front.length = loop)
    (hexit : loop + condition.length = exit) (h : Makes start scope (front ++ loopCode loop condition body) act x good) :
    Makes start scope done (Emission.closeLoop loop exit >>= fun _ => act) x good := by
  have hwritten : done ++ [.jump loop] ++ [.op .nop] =
      (front ++ condition) ++ .jumpUnless 0 :: (body ++ [.jump loop, .op .nop]) := by
    simp [hdone]
  have hlast : start + (done ++ [Instr.jump loop]).length = loop + condition.length + body.length + 2 := by
    simp only [hdone, List.length_append, List.length_cons, List.length_nil]
    omega
  rw [Emission.closeLoop, bind_assoc]
  refine push ?_
  rw [bind_assoc]
  refine here hlast ?_
  rw [bind_assoc]
  refine push ?_
  rw [hwritten]
  refine patch (Or.inr rfl) ?_ ?_
  · rw [List.length_append, ← Nat.add_assoc, hloop, hexit]
  · rw [loopCode] at h
    simpa using h

end Makes

/-! ### The code of statements -/

section
variable {layouts : Layouts}

mutual

/-- What is written for a statement, once its holes are filled, is its code from the index on at which it starts. -/
theorem emitStmt_makes : ∀ (s : Tree.Stmt) (scope : Scope) (start : Nat),
    Makes start scope [] (emitStmt layouts s) (stmtCode layouts scope start s) Scoped
  | .declare d, _, start => by
    unfold emitStmt stmtCode
    exact emitDeclare_makes d start
  | .assign a, _, _ => by
    unfold emitStmt stmtCode
    exact .plainLast (emitAssign_makes a) fun code => ⟨rfl, rfl⟩
  | .call name args, _, _ => by
    unfold emitStmt stmtCode callCode
    rw [bind_assoc]
    refine .plain (emitArgs_makes args) fun code => .push ?_
    rw [pure_bind]
    split
    · exact .pure ⟨rfl, rfl⟩
    · exact .last ⟨rfl, by simp⟩
  | .choose first others otherwise, scope, start => by
    unfold emitStmt stmtCode
    refine .bind rfl (emitBranch_makes first scope start) ?_
    rintro ⟨branch, _⟩ ⟨_, _⟩ scope₁ _ ⟨rfl, rfl, hholes⟩
    obtain ⟨rfl, rfl⟩ := Prod.mk.inj hholes
    -- Until the exit is known, the jumps of the branches stay open, and each branch adds its own to the list.
    have hfirst := unfinished_concat start [] branch
    refine .andThen (emitBranches_makes others scope₁ start hfirst) ?_
    rintro ⟨branches, _⟩ ⟨next, _⟩ scope₂ written ⟨rfl, hopen, rfl⟩
    have hexit : start + written.length = start + chainLength (branch :: branches) := by rw [hopen.length]; rfl
    cases otherwise with
    | nil =>
      refine .here hexit (.push (.patchNext hopen (.patchExits [] ⟨rfl, ?_⟩)))
      simp
    | cons s rest =>
      -- With a last block the jump of the last condition is aimed at it first; the exits wait until it is written.
      refine .aim hopen (.inBlock ?_ (emitStmts_makes (s :: rest) _ _) fun code scope₃ => ?_)
      · rw [length_chainCode]
        rfl
      · have hexit' : start + (chainCode start 0 (branch :: branches) ++ code).length =
            start + chainLength (branch :: branches) + code.length := by
          rw [List.length_append, length_chainCode, Nat.add_assoc]
        refine .here hexit' (.push ?_)
        rw [List.append_assoc]
        exact .patchExits [] ⟨rfl, by simp⟩
  | .loop condition body, scope, start => by
    unfold emitStmt stmtCode
    refine .here rfl (.plain (emitExpr_makes condition) fun code => .reserve rfl ?_)
    refine .inBlock ?_ (emitStmts_makes body _ _) fun code' scope' => ?_
    · simp only [List.nil_append, List.length_append, List.length_singleton]
      omega
    · rw [← bind_pure (Emission.closeLoop _ _)]
      exact .closeLoop (by simp) rfl rfl (.pure ⟨rfl, rfl⟩)
  | .count init condition step body, scope, start => by
    unfold emitStmt stmtCode
    refine .changeScope (.bind rfl (emitDeclare_makes init _) ?_)
    rintro ⟨_, _⟩ _ scope₁ icode ⟨rfl, rfl⟩
    refine .here rfl (.plain (emitExpr_makes condition) fun code => .reserve rfl ?_)
    refine .inBlock ?_ (emitStmts_makes body _ _) fun code' scope' => ?_
    · simp only [List.nil_append, List.length_append, List.length_singleton]
      omega
    · refine .plain (emitAssign_makes step) fun scode => ?_
      -- The jump back skips the first value of the counter, which is not part of the round.
      have hdone : [] ++ icode ++ code ++ [.jumpUnless 0] ++ code' ++ scode =
          icode ++ (code ++ .jumpUnless 0 :: (code' ++ scode)) := by simp
      refine .closeLoop hdone rfl ?_ (.changeScopeLast ⟨rfl, rfl⟩)
      rw [List.nil_append, List.length_append, Nat.add_assoc]
  | .ret e, _, _ => by
    unfold emitStmt stmtCode
    exact .plain (emitExpr_makes e) fun code => .last ⟨rfl, rfl⟩

theorem emitStmts_makes : ∀ (stmts : List Tree.Stmt) (scope : Scope) (start : Nat),
    Makes start scope [] (emitStmts layouts stmts) (stmtsCode layouts scope start stmts) Scoped
  | [], _, _ => .pure ⟨rfl, rfl⟩
  | s :: rest, scope, start => by
    unfold emitStmts stmtsCode
    refine .bind rfl (emitStmt_makes s scope start) ?_
    rintro ⟨_, _⟩ _ scope₁ code ⟨rfl, rfl⟩
    rw [← bind_pure (emitStmts layouts rest)]
    refine .bind rfl (emitStmts_makes rest _ _) ?_
    rintro ⟨_, _⟩ _ scope₂ code' ⟨rfl, rfl⟩
    exact .pure ⟨rfl, rfl⟩

theorem emitBranch_makes : ∀ (b : Tree.Branch) (scope : Scope) (start : Nat),
    Makes start scope [] (emitBranch layouts b) (branchCode layouts scope start b) (Opened start)
  | .mk condition body, scope, start => by
    unfold emitBranch branchCode
    refine .plain (emitExpr_makes condition) fun code => .reserve rfl ?_
    refine .inBlock ?_ (emitStmts_makes body _ _) fun code' scope' => .reserve rfl (.pure ⟨rfl, ?_, ?_⟩)
    · simp only [List.nil_append, List.length_append, List.length_singleton]
      omega
    · simp [openBranch]
    · simp only [List.nil_append, List.length_append, List.length_singleton, Prod.mk.injEq, true_and]
      omega

/-- Behind each branch the code is the chain so far with the last condition still open. -/
theorem emitBranches_makes : ∀ (branches : List Tree.Branch) (scope : Scope) (start : Nat)
    {chain : List (List Instr × List Instr)} {next : Nat} {done : List Instr}, Unfinished start chain next done →
    Makes start scope done (emitBranches layouts next (chainExits start chain) branches)
      (branchesCode layouts scope (start + chainLength chain) branches) fun r a scope' written =>
        scope' = r.2 ∧ Unfinished start (chain ++ r.1) a.1 written ∧ a.2 = chainExits start (chain ++ r.1)
  | [], _, _, chain, next, _, hopen => by
    refine .pure ⟨rfl, ?_, ?_⟩
    · rw [List.append_nil]
      exact hopen
    · rw [List.append_nil]
  | b :: rest, scope, start, chain, next, done, hopen => by
    unfold emitBranches branchesCode
    refine .aim hopen (.bind ?_ (emitBranch_makes b scope (start + chainLength chain)) ?_)
    · rw [length_chainCode]
    rintro ⟨branch, _⟩ ⟨_, _⟩ scope' _ ⟨rfl, rfl, hholes⟩
    obtain ⟨rfl, rfl⟩ := Prod.mk.inj hholes
    have hexits : chainExits start chain ++ chainExits (start + chainLength chain) [branch] =
        chainExits start (chain ++ [branch]) := (chainExits_append start chain [branch]).symm
    have hmore := emitBranches_makes rest scope' start (unfinished_concat start chain branch)
    rw [← hexits, chainLength_append, ← Nat.add_assoc] at hmore
    refine .andThenPure hmore ?_
    rintro ⟨branches, _⟩ a scope₂ written hgood
    rw [List.append_assoc] at hgood
    exact .pure hgood

end

end

end Bytecode.Lowering
