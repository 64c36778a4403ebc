import Bytecode.Proofs.Scoping.Recasting
import Bytecode.Proofs.Scoping.Resolution

/-! What can be lowered: programs whose functions have different names, in which every path starts with a variable in scope,
    and in which every struct that is made is one of the program. Where this fails, lowering says what is wrong first. -/

namespace Bytecode.Scoping
open Lowering

/-! ### What can be wrong -/

/-- What is wrong with a mention behind others, in a program with some structs. -/
inductive Violation (structs : List String) (before : List Mention) : Mention → Error → Prop where
  | hidden {m : Mention} {name : String} (uses : m.uses? = some name) (invisible : ¬Visible before name) :
    Violation structs before m (.unknownVariable name)
  | unknown {name : String} (missing : name ∉ structs) : Violation structs before (.makes name) (.unknownStruct name)
  | nameless : Violation structs before .nameless .emptyPath

/-- Nothing is wrong with any of the mentions. -/
def Clean (structs : List String) (mentions : List Mention) : Prop :=
  ∀ before m behind, mentions = before ++ m :: behind → ∀ e, ¬Violation structs before m e

def structNames (p : Tree.Program) : List String :=
  p.structs.map Tree.Struct.name

/-- A program whose names are all in order. -/
structure WellScoped (p : Tree.Program) : Prop where
  distinct : (p.functions.map Tree.Function.name).Nodup
  paths : ∀ f ∈ p.functions, .nameless ∉ functionMentions f
  visible : ∀ f ∈ p.functions, ∀ before m behind name, functionMentions f = before ++ m :: behind →
    m.uses? = some name → Visible before name
  structs : ∀ f ∈ p.functions, ∀ name, .makes name ∈ functionMentions f → name ∈ structNames p

/-- What is wrong first: the functions come one after the other, the name of a function before what it mentions, and its
mentions one after the other. -/
inductive FirstViolation (p : Tree.Program) : Error → Prop where
  | duplicate {earlier later : List Tree.Function} {f : Tree.Function} (functions : p.functions = earlier ++ f :: later)
    (fine : WellScoped { p with functions := earlier }) (taken : f.name ∈ earlier.map Tree.Function.name) :
    FirstViolation p (.duplicateFunction f.name)
  | inside {earlier later : List Tree.Function} {f : Tree.Function} (functions : p.functions = earlier ++ f :: later)
    (fine : WellScoped { p with functions := earlier }) (free : f.name ∉ earlier.map Tree.Function.name)
    {before behind : List Mention} {m : Mention} {e : Error} (mentions : functionMentions f = before ++ m :: behind)
    (clean : Clean (structNames p) before) (violation : Violation (structNames p) before m e) : FirstViolation p e

section
variable {structs : List String} {mentions : List Mention}

theorem clean_iff :
    Clean structs mentions ↔ .nameless ∉ mentions ∧
      (∀ before m behind name, mentions = before ++ m :: behind → m.uses? = some name → Visible before name) ∧
      ∀ name, .makes name ∈ mentions → name ∈ structs := by
  constructor
  · intro h
    refine ⟨fun hmem => ?_, fun before m behind name heq huses => ?_, fun name hmem => ?_⟩
    · obtain ⟨before, behind, heq⟩ := List.append_of_mem hmem
      exact h before _ behind heq _ .nameless
    · by_contra hinvisible
      exact h before m behind heq _ (.hidden huses hinvisible)
    · obtain ⟨before, behind, heq⟩ := List.append_of_mem hmem
      by_contra hmissing
      exact h before _ behind heq _ (.unknown hmissing)
  · rintro ⟨hpaths, hvariables, hstructs⟩ before m behind heq e hviolation
    have hmem : m ∈ mentions := by
      rw [heq]
      simp
    cases hviolation with
    | hidden huses hinvisible => exact hinvisible (hvariables before m behind _ heq huses)
    | unknown hmissing => exact hmissing (hstructs _ hmem)
    | nameless => exact hpaths hmem

theorem wellScoped_iff {p : Tree.Program} :
    WellScoped p ↔ (p.functions.map Tree.Function.name).Nodup ∧
      ∀ f ∈ p.functions, Clean (structNames p) (functionMentions f) := by
  simp only [clean_iff]
  constructor
  · rintro ⟨hdistinct, hpaths, hvariables, hstructs⟩
    exact ⟨hdistinct, fun f hf => ⟨hpaths f hf, hvariables f hf, hstructs f hf⟩⟩
  · rintro ⟨hdistinct, h⟩
    exact ⟨hdistinct, fun f hf => (h f hf).1, fun f hf => (h f hf).2.1, fun f hf => (h f hf).2.2⟩

end

/-! ### Functions -/

theorem slot_eq_error_iff {scope : Scope} {name : String} {e : Error} :
    scope.slot name = .error e ↔ scope.find? name = none ∧ e = .unknownVariable name := by
  unfold Scope.slot
  cases scope.find? name <;> simp [eq_comm]

theorem fields_eq_error_iff {layouts : Layouts} {name : String} {e : Error} :
    layouts.fields name = .error e ↔ layouts.get? name = none ∧ e = .unknownStruct name := by
  unfold Layouts.fields
  cases layouts.get? name <;> simp [eq_comm]

theorem lowerFunction_error_iff_scan {layouts : Layouts} {f : Tree.Function} {e : Error} :
    lowerFunction layouts f = .error e ↔ scan layouts Scope.start (functionMentions f) = .error e := by
  rw [← Except.map_eq_error_iff Prod.fst, scan_function, Except.map_eq_error_iff, lowerFunction, bind_pure_comp,
    Except.map_eq_error_iff]

/-- The layouts are those of some structs. -/
def Knows (layouts : Layouts) (structs : List String) : Prop :=
  ∀ name, layouts.get? name = none ↔ name ∉ structs

section
variable {layouts : Layouts} {structs : List String} (hknows : Knows layouts structs) {e : Error}
include hknows

theorem emit_eq_error_iff {before : List Mention} {scope : Scope} (h : Tracks before scope) {m : Mention} :
    m.emit layouts scope = .error e ↔ Violation structs before m e := by
  -- The three mentions of variables fail for the same reason.
  have hvariable : ∀ name, m.uses? = some name →
      (scope.slot name = .error e ↔ Violation structs before m e) := by
    intro name huses
    rw [slot_eq_error_iff, h.find?_eq_none_iff]
    constructor
    · rintro ⟨hinvisible, rfl⟩
      exact .hidden huses hinvisible
    · intro hviolation
      cases hviolation with
      | hidden huses' hinvisible =>
        obtain rfl := Option.some.inj (huses.symm.trans huses')
        exact ⟨hinvisible, rfl⟩
      | unknown _ => cases huses
      | nameless => cases huses
  cases m with
  | opens | closes | declares =>
    simp only [Mention.emit, pure, Except.pure, reduceCtorEq, false_iff]
    rintro ⟨huses, -⟩
    cases huses
  | reads name | targets name | assigns name =>
    rw [Mention.emit, Except.map_eq_error_iff]
    exact hvariable name rfl
  | makes name =>
    rw [Mention.emit, Except.map_eq_error_iff, fields_eq_error_iff, hknows]
    constructor
    · rintro ⟨hmissing, rfl⟩
      exact .unknown hmissing
    · intro hviolation
      cases hviolation with
      | hidden huses => cases huses
      | unknown hmissing => exact ⟨hmissing, rfl⟩
  | nameless =>
    simp only [Mention.emit, Except.error.injEq]
    constructor
    · rintro rfl
      exact .nameless
    · intro hviolation
      cases hviolation with
      | hidden huses => cases huses
      | nameless => rfl

theorem scan_ok_iff_clean {f : Tree.Function} {mentions rest : List Mention} (hf : functionMentions f = mentions ++ rest) :
    (∃ r, scan layouts Scope.start mentions = .ok r) ↔ Clean structs mentions := by
  rw [scan_eq_ok_iff]
  refine forall_congr' fun before => forall_congr' fun m => forall_congr' fun behind => forall_congr' fun heq => ?_
  have htracks : Tracks before (scopeAfter Scope.start before) := by
    rw [heq, List.append_assoc] at hf
    exact .function hf
  rw [Except.ok_iff_not_error]
  exact forall_congr' fun e => not_congr (emit_eq_error_iff hknows htracks)

theorem lowerFunction_error_iff {f : Tree.Function} :
    lowerFunction layouts f = .error e ↔
      ∃ before m behind, functionMentions f = before ++ m :: behind ∧ Clean structs before ∧ Violation structs before m e := by
  rw [lowerFunction_error_iff_scan, scan_eq_error_iff]
  refine exists_congr fun before => exists_congr fun m => exists_congr fun behind => and_congr_right fun heq => ?_
  rw [scan_ok_iff_clean hknows heq, emit_eq_error_iff hknows (.function heq)]

theorem lowerFunction_ok_iff {f : Tree.Function} :
    (∃ g, lowerFunction layouts f = .ok g) ↔ Clean structs (functionMentions f) := by
  rw [← scan_ok_iff_clean hknows (List.append_nil _).symm, Except.ok_iff_not_error, Except.ok_iff_not_error]
  exact forall_congr' fun e => not_congr lowerFunction_error_iff_scan

end

/-! ### Programs -/

section
variable {layouts : Layouts} {c : Chunk} {fs : List Tree.Function} {taken : List String} {e : Error}

theorem taken_add (htaken : ∀ name, c.get? name = none ↔ name ∉ taken) {f : Tree.Function} {g : Function}
    (hg : lowerFunction layouts f = .ok g) (name : String) : (c.add g).get? name = none ↔ name ∉ taken ++ [f.name] := by
  rw [Chunk.get?_add, lowerFunction_name hg]
  by_cases hname : f.name = name
  · simp [hname]
  · have hne : name ≠ f.name := fun h => hname h.symm
    simp [hname, htaken, hne]

/-- Functions are lowered one after the other, unless the name of one is taken already or one cannot be lowered. -/
theorem lowerFunctions_ok_iff (htaken : ∀ name, c.get? name = none ↔ name ∉ taken) :
    (∃ c', lowerFunctions layouts c fs = .ok c') ↔
      (fs.map Tree.Function.name).Nodup ∧ (∀ f ∈ fs, f.name ∉ taken) ∧ ∀ f ∈ fs, ∃ g, lowerFunction layouts f = .ok g := by
  induction fs generalizing c taken with
  | nil => simp [lowerFunctions]
  | cons f rest ih =>
    constructor
    · rintro ⟨c', hc'⟩
      obtain ⟨hnone, g, hg, hrest⟩ := lowerFunctions_cons hc'
      obtain ⟨hdistinct, hfree, hlower⟩ := (ih (taken_add htaken hg)).mp ⟨c', hrest⟩
      refine ⟨List.nodup_cons.mpr ⟨fun hmem => ?_, hdistinct⟩, ?_, ?_⟩
      · obtain ⟨f', hf', hname⟩ := List.mem_map.mp hmem
        exact hfree f' hf' (by simp [hname])
      · intro f' hf'
        rcases List.mem_cons.mp hf' with rfl | hf'
        · exact (htaken _).mp hnone
        · exact fun hmem => hfree f' hf' (List.mem_append_left _ hmem)
      · intro f' hf'
        rcases List.mem_cons.mp hf' with rfl | hf'
        · exact ⟨g, hg⟩
        · exact hlower f' hf'
    · rintro ⟨hdistinct, hfree, hlower⟩
      obtain ⟨hnew, hdistinct⟩ := List.nodup_cons.mp hdistinct
      obtain ⟨g, hg⟩ := hlower f List.mem_cons_self
      have hnone : c.get? f.name = none := (htaken _).mpr (hfree f List.mem_cons_self)
      -- The names before a function count as taken, so that the hypothesis covers the rest.
      have hothers : ∀ f' ∈ rest, f'.name ∉ taken ++ [f.name] := by
        intro f' hf'
        rw [List.mem_append, List.mem_singleton]
        rintro (hmem | hname)
        · exact hfree f' (List.mem_cons_of_mem _ hf') hmem
        · exact hnew (List.mem_map.mpr ⟨f', hf', hname⟩)
      obtain ⟨c', hc'⟩ := (ih (taken_add htaken hg)).mpr
        ⟨hdistinct, hothers, fun f' hf' => hlower f' (List.mem_cons_of_mem _ hf')⟩
      refine ⟨c', ?_⟩
      rw [lowerFunctions, hnone]
      exact Except.bind_eq_ok_iff.mpr ⟨g, hg, hc'⟩

theorem lowerFunctions_error_iff (htaken : ∀ name, c.get? name = none ↔ name ∉ taken) :
    lowerFunctions layouts c fs = .error e ↔
      ∃ earlier f later, fs = earlier ++ f :: later ∧ (∃ c', lowerFunctions layouts c earlier = .ok c') ∧
        ((f.name ∈ taken ++ earlier.map Tree.Function.name ∧ e = .duplicateFunction f.name) ∨
          (f.name ∉ taken ++ earlier.map Tree.Function.name ∧ lowerFunction layouts f = .error e)) := by
  induction fs generalizing c taken with
  | nil => simp [lowerFunctions]
  | cons f rest ih =>
    constructor
    · intro h
      rw [lowerFunctions] at h
      cases hget : c.get? f.name with
      | some g =>
        rw [hget] at h
        cases h
        -- The chunk has a function of this name, so it is one of those before.
        have hmem : f.name ∈ taken := by
          by_contra hfree
          rw [(htaken _).mpr hfree] at hget
          cases hget
        exact ⟨[], f, rest, rfl, ⟨c, rfl⟩, Or.inl ⟨by simpa using hmem, rfl⟩⟩
      | none =>
        rw [hget] at h
        rcases Except.bind_eq_error_iff.mp h with hf | ⟨g, hg, hrest⟩
        · exact ⟨[], f, rest, rfl, ⟨c, rfl⟩, Or.inr ⟨by simpa using (htaken _).mp hget, hf⟩⟩
        · obtain ⟨earlier, f', later, rfl, ⟨c', hc'⟩, hwrong⟩ := (ih (taken_add htaken hg)).mp hrest
          refine ⟨f :: earlier, f', later, rfl, ⟨c', ?_⟩, by simpa using hwrong⟩
          rw [lowerFunctions, hget]
          exact Except.bind_eq_ok_iff.mpr ⟨g, hg, hc'⟩
    · rintro ⟨earlier, f', later, heq, ⟨c', hc'⟩, hwrong⟩
      rw [lowerFunctions]
      -- The wrong function is either this one or one of the rest.
      rcases List.cons_eq_append_iff.mp heq with ⟨rfl, hsame⟩ | ⟨earlier, rfl, rfl⟩
      · obtain ⟨rfl, -⟩ := List.cons.inj hsame
        rw [List.map_nil, List.append_nil] at hwrong
        rcases hwrong with ⟨hmem, rfl⟩ | ⟨hfree, hf⟩
        · have hsome : (c.get? f'.name).isSome = true := by
            rw [Option.isSome_iff_ne_none, ne_eq, htaken, not_not]
            exact hmem
          rw [if_pos hsome]
          rfl
        · rw [(htaken _).mpr hfree]
          exact Except.bind_eq_error_iff.mpr (Or.inl hf)
      · obtain ⟨hnone, g, hg, hrest⟩ := lowerFunctions_cons hc'
        rw [hnone]
        refine Except.bind_eq_error_iff.mpr (Or.inr ⟨g, hg, ?_⟩)
        exact (ih (taken_add htaken hg)).mpr ⟨earlier, f', later, rfl, ⟨c', hrest⟩, by simpa using hwrong⟩

end

theorem knows_register (structs : List Tree.Struct) :
    Knows (Layouts.register {} structs) (structs.map Tree.Struct.name) := by
  have hfold : ∀ layouts : Layouts, ∀ name,
      (layouts.register structs).get? name = none ↔ layouts.get? name = none ∧ name ∉ structs.map Tree.Struct.name := by
    induction structs with
    | nil => simp [Layouts.register]
    | cons s rest ih =>
      intro layouts name
      rw [Layouts.register, List.foldl_cons, ← Layouts.register, ih, Table.get?_put]
      by_cases hname : name = s.name
      · simp [hname]
      · simp [hname]
  intro name
  rw [hfold]
  simp [Table.get?, Table.getEntry?]

/-- Lowering accepts just the programs that are well scoped. -/
theorem lower_ok_iff (p : Tree.Program) : (∃ c, lower p = .ok c) ↔ WellScoped p := by
  have hempty : ∀ name, ({} : Chunk).get? name = none ↔ name ∉ ([] : List String) := by simp [Chunk.get?]
  rw [wellScoped_iff, lower, Generator.lower, lowerFunctions_ok_iff hempty]
  have hknows := knows_register p.structs
  simp only [lowerFunction_ok_iff hknows]
  simp [structNames]

/-- Lowering reports what is wrong first. -/
theorem lower_error_iff (p : Tree.Program) (e : Error) : lower p = .error e ↔ FirstViolation p e := by
  have hempty : ∀ name, ({} : Chunk).get? name = none ↔ name ∉ ([] : List String) := by simp [Chunk.get?]
  have hknows := knows_register p.structs
  have hearlier : ∀ earlier, (∃ c, lowerFunctions (Layouts.register {} p.structs) {} earlier = .ok c) ↔
      WellScoped { p with functions := earlier } := fun earlier => lower_ok_iff { p with functions := earlier }
  rw [lower, Generator.lower, lowerFunctions_error_iff hempty]
  constructor
  · rintro ⟨earlier, f, later, heq, hfine, ⟨htaken, rfl⟩ | ⟨hfree, hf⟩⟩
    · exact .duplicate heq ((hearlier _).mp hfine) htaken
    · obtain ⟨before, m, behind, hmentions, hclean, hviolation⟩ := (lowerFunction_error_iff hknows).mp hf
      exact .inside heq ((hearlier _).mp hfine) hfree hmentions hclean hviolation
  · intro h
    cases h with
    | @duplicate earlier later f heq hfine htaken =>
      exact ⟨earlier, f, later, heq, (hearlier _).mpr hfine, Or.inl ⟨htaken, rfl⟩⟩
    | @inside earlier later f heq hfine hfree before behind m e hmentions hclean hviolation =>
      refine ⟨earlier, f, later, heq, (hearlier _).mpr hfine, Or.inr ⟨hfree, ?_⟩⟩
      exact (lowerFunction_error_iff hknows).mpr ⟨before, m, behind, hmentions, hclean, hviolation⟩

/-! ### What does not matter -/

section
variable (r : Recasting) {p : Tree.Program}

theorem structNames_recast : structNames (r.program p) = structNames p := by
  simp [structNames, Recasting.program, Recasting.struct]

theorem functionNames_recast (fs : List Tree.Function) :
    (fs.map r.function).map Tree.Function.name = fs.map Tree.Function.name := by
  simp [Recasting.function]

theorem wellScoped_recast : WellScoped (r.program p) ↔ WellScoped p := by
  rw [wellScoped_iff, wellScoped_iff, structNames_recast]
  simp only [Recasting.program, functionNames_recast, List.forall_mem_map, Recasting.function_mentions]

theorem firstViolation_recast {e : Error} : FirstViolation (r.program p) e ↔ FirstViolation p e := by
  -- The functions before the wrong one are a program of their own, which is recast too.
  have hearlier : ∀ fs, WellScoped { r.program p with functions := fs.map r.function } ↔
      WellScoped { p with functions := fs } := fun fs => wellScoped_recast r (p := { p with functions := fs })
  constructor
  · intro h
    cases h with
    | duplicate hfunctions hfine htaken =>
      obtain ⟨earlier, rest, heq, rfl, hrest⟩ := List.map_eq_append_iff.mp hfunctions
      obtain ⟨f, later, rfl, rfl, rfl⟩ := List.map_eq_cons_iff.mp hrest
      rw [functionNames_recast] at htaken
      exact .duplicate (f := f) heq ((hearlier _).mp hfine) htaken
    | inside hfunctions hfine hfree hmentions hclean hviolation =>
      obtain ⟨earlier, rest, heq, rfl, hrest⟩ := List.map_eq_append_iff.mp hfunctions
      obtain ⟨f, later, rfl, rfl, rfl⟩ := List.map_eq_cons_iff.mp hrest
      rw [functionNames_recast] at hfree
      rw [Recasting.function_mentions] at hmentions
      rw [structNames_recast] at hclean hviolation
      exact .inside heq ((hearlier _).mp hfine) hfree hmentions hclean hviolation
  · intro h
    have hmap : ∀ earlier f later, p.functions = earlier ++ f :: later →
        (r.program p).functions = earlier.map r.function ++ r.function f :: later.map r.function := by
      intro earlier f later heq
      simp [Recasting.program, heq]
    cases h with
    | @duplicate earlier later f hfunctions hfine htaken =>
      rw [← functionNames_recast r] at htaken
      exact .duplicate (f := r.function f) (hmap _ _ _ hfunctions) ((hearlier _).mpr hfine) htaken
    | inside hfunctions hfine hfree hmentions hclean hviolation =>
      rw [← functionNames_recast r] at hfree
      rw [← r.function_mentions] at hmentions
      rw [← structNames_recast r] at hclean hviolation
      exact .inside (hmap _ _ _ hfunctions) ((hearlier _).mpr hfine) hfree hmentions hclean hviolation

end

/-- A program can be lowered just if it is well scoped, and if it cannot, lowering reports what is wrong first. Neither
depends on the names of fields, on which functions are called with how many arguments, or on types. -/
theorem lowering_accepts_well_scoped (p : Tree.Program) :
    ((∃ c, lower p = .ok c) ↔ WellScoped p) ∧ (∀ e, lower p = .error e ↔ FirstViolation p e) ∧
      ∀ (r : Recasting) (e : Error), lower (r.program p) = .error e ↔ lower p = .error e := by
  refine ⟨lower_ok_iff p, lower_error_iff p, fun r e => ?_⟩
  rw [lower_error_iff, lower_error_iff]
  exact firstViolation_recast r

/-- The number of columns is looked at before the number of rows. -/
example :
    lower ⟨[], [{ name := "main", result := .void, body := [.ret (.newArray "int" (.two (.var "r") (.var "c")))] }]⟩ =
      .error (.unknownVariable "c") := rfl

end Bytecode.Scoping
