import Bytecode.Proofs.Lowering.Functions
import Bytecode.Proofs.Scoping.Resolution
import Mathlib.Data.List.Forall2

/-! The slots of variables. The instructions about slots in the code of a function stand one by one for its mentions of
    variables: a declaration stores to its own number among the declarations, and any other mention loads or stores the number
    of the declaration that it means. So no two declarations share a slot. -/

namespace Bytecode.Scoping
open Lowering

/-- There is an instruction about a slot for the mention. The variable that an assignment is for has one where it is
assigned. -/
def Mention.hasSlot : Mention → Bool
  | .declares _ | .reads _ | .assigns _ => true
  | _ => false

/-- A mention with those that come before it in the function. -/
structure Occurrence where
  before : List Mention
  mention : Mention

/-- The mentions that have instructions about slots, behind some others. -/
def occurrences (before : List Mention) : List Mention → List Occurrence
  | [] => []
  | m :: rest => (if m.hasSlot then [⟨before, m⟩] else []) ++ occurrences (before ++ [m]) rest

/-- The instruction that lexical scoping demands. -/
inductive Stands : Occurrence → Instr → Prop where
  | declared {before : List Mention} {name : String} : Stands ⟨before, .declares name⟩ (.store (sites before))
  | read {before : List Mention} {name : String} {site : Nat} (means : Resolves before name site) :
    Stands ⟨before, .reads name⟩ (.load site)
  | assigned {before : List Mention} {name : String} {site : Nat} (means : Resolves before name site) :
    Stands ⟨before, .assigns name⟩ (.store site)

/-- Lexical scoping leaves no choice. -/
theorem Stands.unique {o : Occurrence} {i i' : Instr} (h : Stands o i) (h' : Stands o i') : i = i' := by
  cases h with
  | declared =>
    cases h'
    rfl
  | read hmeans =>
    cases h' with
    | read hmeans' => rw [hmeans.unique hmeans']
  | assigned hmeans =>
    cases h' with
    | assigned hmeans' => rw [hmeans.unique hmeans']

/-- The instructions that stand for declarations. -/
def declaringCode (os : List Occurrence) (code : List Instr) : List Instr :=
  ((os.zip code).filter fun o => o.1.mention.isDeclaration).map Prod.snd

section
variable {layouts : Layouts} {before mentions : List Mention} {m : Mention} {scope : Scope} {code : List Instr}

theorem emit_stands (h : Tracks before scope) (hcode : m.emit layouts scope = .ok code) :
    List.Forall₂ Stands (if m.hasSlot then [⟨before, m⟩] else []) code := by
  have hslot : ∀ name slot, scope.slot name = .ok slot → Resolves before name slot := by
    intro name slot hslot
    exact h.find?_eq_some_iff.mp (Scope.slot_eq_ok_iff.mp hslot)
  cases m with
  | opens | closes =>
    cases hcode
    exact .nil
  | declares name =>
    cases hcode
    rw [h.next]
    exact .cons .declared .nil
  | reads name =>
    obtain ⟨slot, hfound, rfl⟩ := Except.map_eq_ok_iff.mp hcode
    exact .cons (.read (hslot _ _ hfound)) .nil
  | assigns name =>
    obtain ⟨slot, hfound, rfl⟩ := Except.map_eq_ok_iff.mp hcode
    exact .cons (.assigned (hslot _ _ hfound)) .nil
  | targets | makes =>
    obtain ⟨_, -, rfl⟩ := Except.map_eq_ok_iff.mp hcode
    exact .nil
  | nameless => cases hcode

/-- The rest of a function. -/
theorem scan_stands {f : Tree.Function} (hf : functionMentions f = before ++ mentions) {r : List Instr × Scope}
    (hr : scan layouts (scopeAfter Scope.start before) mentions = .ok r) :
    List.Forall₂ Stands (occurrences before mentions) r.1 := by
  induction mentions generalizing before r with
  | nil =>
    cases hr
    exact .nil
  | cons m rest ih =>
    obtain ⟨code, r', hcode, hr', rfl⟩ := scan_cons_eq_ok_iff.mp hr
    have hnext : m.move (scopeAfter Scope.start before) = scopeAfter Scope.start (before ++ [m]) := by
      rw [scopeAfter, scopeAfter, List.foldl_append, List.foldl_cons, List.foldl_nil]
    rw [hnext] at hr'
    exact List.rel_append (emit_stands (.function hf) hcode) (ih (by simpa using hf) hr')

theorem lowerFunction_stands {f : Tree.Function} {g : Function} (h : lowerFunction layouts f = .ok g) :
    List.Forall₂ Stands (occurrences [] (functionMentions f)) (slotCode g.code.toList) := by
  obtain ⟨code, hcode, heq⟩ := Except.bind_eq_ok_iff.mp h
  obtain rfl := Except.pure_eq_ok_iff.mp heq
  have hscan : Prod.fst <$> scan layouts Scope.start (functionMentions f) = .ok (slotCode code) := by
    rw [scan_function, hcode]
    rfl
  obtain ⟨r, hr, hslots⟩ := Except.map_eq_ok_iff.mp hscan
  have hstands : List.Forall₂ Stands (occurrences [] (functionMentions f)) r.1 :=
    scan_stands (List.nil_append (functionMentions f)).symm hr
  rw [hslots] at hstands
  exact hstands

/-! ### Declarations -/

theorem declaringCode_eq {os : List Occurrence} (h : List.Forall₂ Stands os code) :
    declaringCode os code = ((os.filter fun o => o.mention.isDeclaration).map fun o => .store (sites o.before)) := by
  induction h with
  | nil => rfl
  | cons hstands _ ih =>
    unfold declaringCode at ih ⊢
    cases hstands with
    | declared =>
      rw [List.zip_cons_cons, List.filter_cons_of_pos rfl, List.filter_cons_of_pos rfl, List.map_cons, List.map_cons, ih]
    | read | assigned =>
      rw [List.zip_cons_cons, List.filter_cons_of_neg Bool.false_ne_true, List.filter_cons_of_neg Bool.false_ne_true, ih]

/-- The declarations are numbered one after the other. -/
theorem occurrences_declared (before mentions : List Mention) :
    ((occurrences before mentions).filter fun o => o.mention.isDeclaration).map (fun o => sites o.before) =
      List.range' (sites before) (sites mentions) := by
  induction mentions generalizing before with
  | nil => rfl
  | cons m rest ih =>
    rw [occurrences, List.filter_append, List.map_append, ih, sites_append, sites_cons]
    cases m with
    | declares name => simp [Mention.hasSlot, Mention.isDeclaration, List.range'_succ]
    | _ => simp [Mention.hasSlot, Mention.isDeclaration]

end

/-- In the code of a lowered function, the instructions about slots stand one by one for the mentions of variables: those
for declarations store to the slots 0, 1, 2, … in the order of the tree, and any other uses the slot of the declaration
that lexical scoping gives to the mention, which is a single one. Neither an expression nor a block changes what names
mean behind it. -/
theorem lowered_slots_are_lexical {g : Generator} {p : Tree.Program} {c : Chunk} (h : (g.lower p).1 = .ok c)
    {f : Tree.Function} (hf : f ∈ p.functions) :
    (∃ f', c.get? f.name = some f' ∧
      List.Forall₂ Stands (occurrences [] (functionMentions f)) (slotCode f'.code.toList) ∧
      declaringCode (occurrences [] (functionMentions f)) (slotCode f'.code.toList) =
        (List.range (sites (functionMentions f))).map .store) ∧
      (∀ o i i', Stands o i → Stands o i' → i = i') ∧
      ∀ before name site,
        (∀ e, Resolves (before ++ exprMentions e) name site ↔ Resolves before name site) ∧
          ∀ body, Resolves (before ++ block (stmtsMentions body)) name site ↔ Resolves before name site := by
  obtain ⟨f', hf', hget⟩ := lowerFunctions_of_mem h hf
  have hstands := lowerFunction_stands hf'
  refine ⟨⟨f', hget, hstands, ?_⟩, fun o i i' => Stands.unique, fun before name site => ⟨fun e => ?_, fun body => ?_⟩⟩
  · rw [declaringCode_eq hstands, List.range_eq_range', ← sites_nil, ← occurrences_declared, List.map_map]
    rfl
  · exact (Secluded.of_plain (.expr e)).resolves_iff
  · exact (Secluded.block (.stmts body)).resolves_iff

/-- A function with two parameters of one name, branches and a loop that declare the names of variables around them, and an
assignment behind them. -/
def shadowing : Tree.Function where
  name := "shadow"
  result := .void
  params := [⟨"x", { name := "int" }⟩, ⟨"x", { name := "int" }⟩]
  body := [
    .choose (.mk (.binary .lt (.var "x") (.literal (.int 1))) [.declare ⟨⟨"x", { name := "int" }⟩, .var "x"⟩])
      [] [.declare ⟨⟨"y", { name := "int" }⟩, .var "x"⟩],
    .count ⟨⟨"y", { name := "int" }⟩, .var "x"⟩ (.binary .lt (.var "y") (.literal (.int 3)))
      ⟨[.plain "y"], .binary .add (.var "y") (.literal (.int 1))⟩ [.declare ⟨⟨"y", { name := "int" }⟩, .var "y"⟩],
    .assign ⟨[.plain "x"], .var "x"⟩]

theorem shadowing_slots_are_lexical :
    ∃ c, (Generator.lower {} ⟨[], [shadowing]⟩).1 = .ok c ∧ ∃ f, c.get? "shadow" = some f ∧
      slotCode f.code.toList = [.store 0, .store 1, .load 1, .load 1, .store 2, .load 1, .store 3, .load 1, .store 4, .load 4,
        .load 4, .store 5, .load 4, .store 4, .load 1, .store 1] ∧
      List.Forall₂ Stands (occurrences [] (functionMentions shadowing)) (slotCode f.code.toList) ∧
      declaringCode (occurrences [] (functionMentions shadowing)) (slotCode f.code.toList) =
        [.store 0, .store 1, .store 2, .store 3, .store 4, .store 5] := by
  refine ⟨_, rfl, ?_⟩
  obtain ⟨⟨f, hget, hstands, hdeclared⟩, -⟩ :=
    lowered_slots_are_lexical (g := {}) (p := ⟨[], [shadowing]⟩) rfl (f := shadowing) List.mem_cons_self
  refine ⟨f, hget, ?_, hstands, hdeclared⟩
  cases hget
  rfl

end Bytecode.Scoping
