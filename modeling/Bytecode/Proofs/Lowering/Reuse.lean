import Bytecode.Proofs.Lowering.Emission
import Bytecode.Proofs.Lowering.Scope
import Mathlib.Data.List.Induction

/-! A generator that is used again and again. A workbench writes the functions of a program one after the other into a buffer,
    on one scope that stays where it is when a program cannot be lowered, inside as many blocks as are open there. Since
    every function starts over, what is left behind is never seen, and from one program to the next only the layouts of the
    structs are kept. -/

namespace Bytecode.Lowering

/-! ### Functions one after the other -/

/-- Takes the arguments from the operands into the next slots. -/
def emitParams : List Tree.Variable → Emission Unit
  | [] => pure ()
  | p :: rest => do
    let slot ← Emission.declare p.name
    Emission.push (.store slot)
    emitParams rest

/-- Gives null back unless the code ends in a return. -/
def emitReturn : Emission Unit :=
  fun b => .ok () { b with code := withReturn b.code }

/-- A function starts with a scope and a buffer of its own, whatever the last one has left. -/
def emitFunction (layouts : Layouts) (f : Tree.Function) : Emission Function := do
  set { scope := .start : Builder }
  emitParams f.params
  emitStmts layouts f.body
  emitReturn
  Emission.changeScope fun s => { s with blocks := [] }
  return ⟨f.name, f.params.length, (← get).code.toArray⟩

def emitFunctions (layouts : Layouts) (c : Chunk) : List Tree.Function → Emission Chunk
  | [] => return c
  | f :: rest => do
    if (c.get? f.name).isSome then throw (.duplicateFunction f.name)
    let g ← emitFunction layouts f
    emitFunctions layouts (c.add g) rest

/-- A generator with the scope of the last function it has worked on. -/
structure Workbench where
  layouts : Layouts := {}
  scope : Scope := ⟨[], 0⟩

def Workbench.lower (b : Workbench) (p : Tree.Program) : Except Error Chunk × Workbench :=
  let layouts := b.layouts.register p.structs
  match emitFunctions layouts {} p.functions { scope := b.scope } with
  | .ok c left => (.ok c, ⟨layouts, left.scope⟩)
  | .error e left => (.error e, ⟨layouts, left.scope⟩)

/-! ### What is left behind does not matter -/

/-- An emission ends with the expected result, wherever it leaves the scope. -/
def Yields {α : Type} (x : Except Error α) : EStateM.Result Error Builder α → Prop
  | .ok a _ => x = .ok a
  | .error e _ => x = .error e

theorem Yields.bind {α β : Type} {x : Except Error α} {k : α → Except Error β} {act : Emission α} {next : α → Emission β}
    {b : Builder} (h : Yields x (act b)) (hnext : ∀ a b', Yields (k a) (next a b')) :
    Yields (x >>= k) ((act >>= next) b) := by
  show Yields (x >>= k) (EStateM.bind act next b)
  unfold EStateM.bind
  cases hact : act b with
  | ok a b' =>
    rw [hact] at h
    obtain rfl : x = .ok a := h
    exact hnext a b'
  | error e b' =>
    rw [hact] at h
    obtain rfl : x = .error e := h
    rfl

/-- The parameters get the slots from the next one on. -/
theorem emitParams_eq (vars : List Tree.Variable) (b : Builder) :
    emitParams vars b = .ok () { b with
      scope := vars.foldl (fun s p => s.declare p.name) b.scope
      code := b.code ++ (List.range' b.scope.next vars.length).map .store } := by
  induction vars generalizing b with
  | nil => simp [emitParams, pure, EStateM.pure]
  | cons p rest ih =>
    refine (ih ⟨b.scope.declare p.name, b.code ++ [.store b.scope.next], b.patches⟩).trans ?_
    simp [List.range'_succ]

/-- The result of a function does not depend on what the last one has left. -/
theorem emitFunction_yields (layouts : Layouts) (f : Tree.Function) (b : Builder) :
    Yields (lowerFunction layouts f) (emitFunction layouts f b) := by
  let base : Builder := { scope := paramScope f.params, code := paramCode f.params }
  have hparams : emitParams f.params { scope := .start } = .ok () base := by
    rw [emitParams_eq, List.nil_append]
    simp only [base, paramCode, List.range_eq_range']
    rfl
  have hlength : base.code.length = f.params.length := by simp [base, paramCode]
  -- The body is emitted behind the code for the parameters, on their scope.
  have hends : Ends base (stmtsCode layouts (paramScope f.params) f.params.length f.body) Scoped
      (emitStmts layouts f.body base) :=
    emitStmts_makes f.body base.scope f.params.length base base hlength (.refl base) rfl (List.append_nil _).symm
  unfold lowerFunction functionCode emitFunction
  show Yields _ (EStateM.bind (emitParams f.params) _ { scope := .start })
  unfold EStateM.bind
  rw [hparams]
  show Yields _ (EStateM.bind (emitStmts layouts f.body) _ base)
  unfold EStateM.bind
  generalize emitStmts layouts f.body base = r at hends ⊢
  cases r with
  | error e left =>
    obtain ⟨-, hbody⟩ := hends
    rw [hbody]
    rfl
  | ok a left =>
    obtain ⟨-, ⟨body, _⟩, _, hbody, hcode, -, rfl⟩ := hends
    rw [hbody]
    show Except.ok _ = Except.ok _
    rw [hcode]

theorem emitFunctions_yields (layouts : Layouts) (c : Chunk) (fs : List Tree.Function) (b : Builder) :
    Yields (lowerFunctions layouts c fs) (emitFunctions layouts c fs b) := by
  induction fs generalizing c b with
  | nil => rfl
  | cons f rest ih =>
    rw [emitFunctions, lowerFunctions]
    by_cases hdup : (c.get? f.name).isSome = true
    · rw [if_pos hdup, if_pos hdup]
      rfl
    · rw [if_neg hdup, if_neg hdup]
      exact (emitFunction_yields layouts f b).bind fun g b' => ih (c.add g) b'

/-! ### Programs one after the other -/

/-- The field names in the last definition of a struct. -/
def lastFields? (structs : List Tree.Struct) (name : String) : Option (List String) :=
  (structs.reverse.find? fun s => s.name = name).map fun s => s.fields.map fun f => f.name

theorem Layouts.register_append (l : Layouts) (structs others : List Tree.Struct) :
    l.register (structs ++ others) = (l.register structs).register others :=
  List.foldl_append

theorem Layouts.get?_register (structs : List Tree.Struct) (name : String) :
    (Layouts.register {} structs).get? name = lastFields? structs name := by
  induction structs using List.reverseRecOn with
  | nil => rfl
  | append_singleton structs s ih =>
    rw [Layouts.register_append]
    show (Table.put _ s.name _).get? name = _
    rw [Table.get?_put, ih]
    by_cases hname : s.name = name
    · simp [lastFields?, hname]
    · simp [lastFields?, hname, Ne.symm hname]

/-- The generator behind programs that were lowered one after the other, whether they could be lowered or not. -/
def Generator.after (programs : List Tree.Program) : Generator :=
  programs.foldl (fun g p => (g.lower p).2) {}

/-- The workbench behind programs that were lowered one after the other, with what the last function has left of its
blocks. -/
def Workbench.after (programs : List Tree.Program) : Workbench :=
  programs.foldl (fun b p => (b.lower p).2) {}

theorem Generator.after_concat (programs : List Tree.Program) (p : Tree.Program) :
    Generator.after (programs ++ [p]) = ((Generator.after programs).lower p).2 :=
  List.foldl_concat ..

theorem Workbench.after_concat (programs : List Tree.Program) (p : Tree.Program) :
    Workbench.after (programs ++ [p]) = ((Workbench.after programs).lower p).2 :=
  List.foldl_concat ..

theorem Generator.layouts_after (programs : List Tree.Program) :
    (Generator.after programs).layouts = Layouts.register {} (programs.flatMap fun p => p.structs) := by
  induction programs using List.reverseRecOn with
  | nil => rfl
  | append_singleton programs p ih =>
    rw [List.flatMap_append, Layouts.register_append, ← ih, Generator.after_concat, List.flatMap_singleton]
    rfl

theorem Workbench.layouts_lower (b : Workbench) (p : Tree.Program) :
    (b.lower p).2.layouts = b.layouts.register p.structs := by
  unfold Workbench.lower
  dsimp only
  split <;> rfl

theorem Workbench.layouts_after (programs : List Tree.Program) :
    (Workbench.after programs).layouts = (Generator.after programs).layouts := by
  induction programs using List.reverseRecOn with
  | nil => rfl
  | append_singleton programs p ih =>
    rw [Workbench.after_concat, Generator.after_concat, Workbench.layouts_lower, ih]
    rfl

/-- What is left of a scope does not show in the result. -/
theorem Workbench.lower_result (b : Workbench) (p : Tree.Program) :
    (b.lower p).1 = (Generator.lower ⟨b.layouts⟩ p).1 := by
  have hyields := emitFunctions_yields (b.layouts.register p.structs) {} p.functions { scope := b.scope }
  unfold Workbench.lower
  dsimp only
  generalize emitFunctions _ _ _ _ = r at hyields ⊢
  cases r with
  | ok c left => exact hyields.symm
  | error e left => exact hyields.symm

/-- Lowered behind other programs, whether they could be lowered or not, a program has the result that it has by itself
with the structs of all of them in front of its own. Each struct then has the fields of its last definition. -/
theorem reuse_keeps_layouts_only (earlier : List Tree.Program) (p : Tree.Program) :
    let structs := (earlier ++ [p]).flatMap fun p => p.structs
    ((Workbench.after earlier).lower p).1 = lower { structs := structs, functions := p.functions } ∧
      ((Generator.after earlier).lower p).1 = lower { structs := structs, functions := p.functions } ∧
      ∀ name, (Workbench.after (earlier ++ [p])).layouts.get? name = lastFields? structs name ∧
        (Generator.after (earlier ++ [p])).layouts.get? name = lastFields? structs name := by
  intro structs
  have hgenerator : ((Generator.after earlier).lower p).1 = lower { structs := structs, functions := p.functions } := by
    have hlayouts : (Generator.after earlier).layouts.register p.structs = Layouts.register {} structs := by
      rw [Generator.layouts_after, ← Layouts.register_append]
      simp [structs]
    show lowerFunctions _ _ _ = lowerFunctions _ _ _
    rw [hlayouts]
  have hfields : ∀ name, (Generator.after (earlier ++ [p])).layouts.get? name = lastFields? structs name := by
    intro name
    rw [Generator.layouts_after, Layouts.get?_register]
  refine ⟨?_, hgenerator, fun name => ⟨?_, hfields name⟩⟩
  · rw [Workbench.lower_result, Workbench.layouts_after]
    exact hgenerator
  · rw [Workbench.layouts_after]
    exact hfields name

end Bytecode.Lowering
