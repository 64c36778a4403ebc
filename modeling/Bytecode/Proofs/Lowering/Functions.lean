import Bytecode.Proofs.Lowering.Cases
import Mathlib.Data.List.Nodup

/-! Lowered functions and the chunk they are collected in. A chunk has a function for each function of the program and no
    other, and looks them up by their names. -/

namespace Bytecode
namespace Chunk

theorem find?_insert (f : Function) (functions : List Function) (name : String) :
    (insert f functions).find? (fun g => g.name == name) =
      if f.name = name then some f else functions.find? fun g => g.name == name := by
  induction functions with
  | nil =>
    by_cases h : f.name = name <;> simp [insert, h]
  | cons g rest ih =>
    unfold insert
    by_cases hname : f.name = name
    · rw [if_pos hname] at ih ⊢
      split
      · simp [hname]
      · rename_i hne
        split
        · simp [hname]
        · have hg : g.name ≠ name := fun h => hne (hname.trans h.symm)
          simp [hg, ih]
    · rw [if_neg hname] at ih ⊢
      split
      · rename_i heq
        have hg : g.name ≠ name := fun h => hname (heq.trans h)
        simp [hname, hg]
      · split
        · simp [hname]
        · simp [List.find?_cons, ih]

/-- A function that was added is found by its name, and the others as before. -/
theorem get?_add (c : Chunk) (f : Function) (name : String) :
    (c.add f).get? name = if f.name = name then some f else c.get? name :=
  find?_insert f c.functions name

theorem mem_insert {f g : Function} {functions : List Function} (h : g ∈ insert f functions) :
    g = f ∨ g ∈ functions := by
  induction functions with
  | nil => simpa [insert] using h
  | cons g' rest ih =>
    unfold insert at h
    split at h
    · rcases List.mem_cons.mp h with rfl | h
      · exact Or.inl rfl
      · exact Or.inr (List.mem_cons_of_mem _ h)
    · split at h
      · exact List.mem_cons.mp h
      · rcases List.mem_cons.mp h with rfl | h
        · exact Or.inr List.mem_cons_self
        · exact (ih h).imp id (List.mem_cons_of_mem _)

end Chunk

namespace Lowering
variable {layouts : Layouts} {c c' : Chunk}

theorem lowerFunction_eq_ok {f : Tree.Function} {g : Function} (h : lowerFunction layouts f = .ok g) :
    ∃ body scope, stmtsCode layouts (paramScope f.params) f.params.length f.body = .ok (body, scope) ∧
      g = ⟨f.name, f.params.length, (withReturn (paramCode f.params ++ body)).toArray⟩ := by
  simp only [lowerFunction, functionCode, Except.bind_eq_ok_iff, Except.pure_eq_ok_iff, Prod.exists] at h
  obtain ⟨_, ⟨body, scope, hbody, rfl⟩, rfl⟩ := h
  exact ⟨body, scope, hbody, rfl⟩

theorem lowerFunctions_cons {f : Tree.Function} {rest : List Tree.Function}
    (h : lowerFunctions layouts c (f :: rest) = .ok c') :
    c.get? f.name = none ∧ ∃ g, lowerFunction layouts f = .ok g ∧ lowerFunctions layouts (c.add g) rest = .ok c' := by
  unfold lowerFunctions at h
  cases hget : c.get? f.name with
  | some g =>
    rw [hget] at h
    cases h
  | none =>
    rw [hget] at h
    exact ⟨rfl, Except.bind_eq_ok_iff.mp h⟩

theorem lowerFunction_name {f : Tree.Function} {g : Function} (h : lowerFunction layouts f = .ok g) : g.name = f.name := by
  obtain ⟨body, scope, -, rfl⟩ := lowerFunction_eq_ok h
  rfl

theorem lowerFunction_arity {f : Tree.Function} {g : Function} (h : lowerFunction layouts f = .ok g) :
    g.arity = f.params.length := by
  obtain ⟨body, scope, -, rfl⟩ := lowerFunction_eq_ok h
  rfl

theorem lowerFunctions_keeps {fs : List Tree.Function} (h : lowerFunctions layouts c fs = .ok c') {name : String}
    {g : Function} (hget : c.get? name = some g) : c'.get? name = some g := by
  induction fs generalizing c with
  | nil =>
    cases h
    exact hget
  | cons f rest ih =>
    obtain ⟨hnone, g', hg', hrest⟩ := lowerFunctions_cons h
    refine ih hrest ?_
    rw [Chunk.get?_add, lowerFunction_name hg', if_neg, hget]
    rintro rfl
    rw [hnone] at hget
    cases hget

theorem lowerFunctions_get? {fs : List Tree.Function} (h : lowerFunctions layouts c fs = .ok c') (name : String) :
    match fs.find? fun f => f.name == name with
    | some f => ∃ g, lowerFunction layouts f = .ok g ∧ c'.get? name = some g
    | none => c'.get? name = c.get? name := by
  induction fs generalizing c with
  | nil =>
    cases h
    rfl
  | cons f rest ih =>
    obtain ⟨hnone, g, hg, hrest⟩ := lowerFunctions_cons h
    have hadd := Chunk.get?_add c g name
    rw [lowerFunction_name hg] at hadd
    by_cases hname : f.name = name
    · rw [if_pos hname] at hadd
      rw [List.find?_cons_of_pos (by simpa using hname)]
      exact ⟨g, hg, lowerFunctions_keeps hrest hadd⟩
    · rw [if_neg hname] at hadd
      rw [List.find?_cons_of_neg (by simpa using hname), ← hadd]
      exact ih hrest

theorem lowerFunctions_of_mem {fs : List Tree.Function} (h : lowerFunctions layouts c fs = .ok c') {f : Tree.Function}
    (hf : f ∈ fs) : ∃ g, lowerFunction layouts f = .ok g ∧ c'.get? f.name = some g := by
  induction fs generalizing c with
  | nil => cases hf
  | cons f' rest ih =>
    obtain ⟨-, g, hg, hrest⟩ := lowerFunctions_cons h
    rcases List.mem_cons.mp hf with rfl | hf
    · refine ⟨g, hg, lowerFunctions_keeps hrest ?_⟩
      rw [Chunk.get?_add, if_pos (lowerFunction_name hg)]
    · exact ih hrest hf

/-- Functions are lowered only into a chunk that has none of their names. -/
theorem lowerFunctions_fresh {fs : List Tree.Function} (h : lowerFunctions layouts c fs = .ok c') {f : Tree.Function}
    (hf : f ∈ fs) : c.get? f.name = none := by
  induction fs generalizing c with
  | nil => cases hf
  | cons f' rest ih =>
    obtain ⟨hnone, g, -, hrest⟩ := lowerFunctions_cons h
    rcases List.mem_cons.mp hf with rfl | hf
    · exact hnone
    · have hfresh := ih hrest hf
      rw [Chunk.get?_add] at hfresh
      split at hfresh
      · cases hfresh
      · exact hfresh

theorem lowerFunctions_nodup {fs : List Tree.Function} (h : lowerFunctions layouts c fs = .ok c') :
    (fs.map fun f => f.name).Nodup := by
  induction fs generalizing c with
  | nil => exact List.nodup_nil
  | cons f rest ih =>
    obtain ⟨-, g, hg, hrest⟩ := lowerFunctions_cons h
    refine List.nodup_cons.mpr ⟨fun hmem => ?_, ih hrest⟩
    obtain ⟨f', hf', hname⟩ := List.mem_map.mp hmem
    have hfresh := lowerFunctions_fresh hrest hf'
    rw [Chunk.get?_add, lowerFunction_name hg, if_pos hname.symm] at hfresh
    cases hfresh

theorem lowerFunctions_name_inj {fs : List Tree.Function} (h : lowerFunctions layouts c fs = .ok c') {f f' : Tree.Function}
    (hf : f ∈ fs) (hf' : f' ∈ fs) (hname : f.name = f'.name) : f = f' :=
  List.inj_on_of_nodup_map (lowerFunctions_nodup h) hf hf' hname

theorem lowerFunctions_mem {fs : List Tree.Function} (h : lowerFunctions layouts c fs = .ok c') {g : Function}
    (hg : g ∈ c'.functions) : g ∈ c.functions ∨ ∃ f ∈ fs, lowerFunction layouts f = .ok g := by
  induction fs generalizing c with
  | nil =>
    cases h
    exact Or.inl hg
  | cons f rest ih =>
    obtain ⟨-, g', hg', hrest⟩ := lowerFunctions_cons h
    rcases ih hrest with hmem | ⟨f', hf', heq⟩
    · rcases Chunk.mem_insert hmem with rfl | hmem
      · exact Or.inr ⟨f, List.mem_cons_self, hg'⟩
      · exact Or.inl hmem
    · exact Or.inr ⟨f', List.mem_cons_of_mem _ hf', heq⟩

/-! ### A program and its chunk -/

/-- A program with a loop and a call, which writes the first power of two from 3 on. -/
def doubling : Tree.Program where
  functions := [
    { name := "main", result := .void, body := [
        .declare ⟨⟨"n", { name := "int" }⟩, .literal (.int 1)⟩,
        .loop (.binary .lt (.var "n") (.literal (.int 3))) [.assign ⟨[.plain "n"], .call "twice" [.var "n"]⟩],
        .print (.var "n")] },
    { name := "twice", result := { name := "int" }, params := [⟨"n", { name := "int" }⟩], body := [
        .ret (.binary .add (.var "n") (.var "n"))] }]

/-- The chunk of the program. -/
def doublingChunk : Chunk where
  functions := [
    ⟨"main", 0, #[.op (.push (.int 1)), .store 0, .load 0, .op (.push (.int 3)), .op (.order .lt), .jumpUnless 10,
      .load 0, .call "twice", .store 0, .jump 2, .op .nop, .load 0, .write, .op (.push .null), .ret]⟩,
    ⟨"twice", 1, #[.store 0, .load 0, .load 0, .op (.arith .add), .ret]⟩]

theorem lower_doubling : (Generator.lower {} doubling).1 = .ok doublingChunk := rfl

end Lowering
end Bytecode
