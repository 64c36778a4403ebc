import Bytecode.Proofs.Lowering.Functions
import Mathlib.Data.String.Basic

/-! The order of the functions of a chunk. A chunk that is made by adding functions has them in the order of their names, and
    one function for a name. So each function is found by its name, and a chunk is determined by which functions it has. -/

namespace Bytecode.Chunk

/-- The functions are in the order of their names, which are different. -/
def Sorted (c : Chunk) : Prop :=
  c.functions.Pairwise fun f g => f.name < g.name

/-- The chunk is made by adding functions one after the other. -/
def Built (c : Chunk) : Prop :=
  ∃ functions : List Function, c = functions.foldl add {}

section
variable {c c' : Chunk} {f g : Function} {functions : List Function}

theorem pairwise_insert (f : Function) (h : functions.Pairwise fun f g => f.name < g.name) :
    (insert f functions).Pairwise fun f g => f.name < g.name := by
  induction functions with
  | nil => exact List.pairwise_singleton _ f
  | cons g rest ih =>
    obtain ⟨hg, hrest⟩ := List.pairwise_cons.mp h
    unfold insert
    split
    · rename_i heq
      exact List.pairwise_cons.mpr ⟨fun g' hg' => heq ▸ hg g' hg', hrest⟩
    · rename_i hne
      split
      · rename_i hlt
        refine List.pairwise_cons.mpr ⟨fun g' hg' => ?_, h⟩
        rcases List.mem_cons.mp hg' with rfl | hg'
        · exact hlt
        · exact lt_trans hlt (hg g' hg')
      · rename_i hle
        have hlt : g.name < f.name := lt_of_le_of_ne (not_lt.mp hle) (Ne.symm hne)
        refine List.pairwise_cons.mpr ⟨fun g' hg' => ?_, ih hrest⟩
        rcases mem_insert hg' with rfl | hg'
        · exact hlt
        · exact hg g' hg'

theorem sorted_empty : Sorted {} :=
  List.Pairwise.nil

theorem Sorted.add (h : c.Sorted) (f : Function) : (c.add f).Sorted :=
  pairwise_insert f h

theorem Sorted.addAll (h : c.Sorted) (functions : List Function) : (functions.foldl Chunk.add c).Sorted := by
  induction functions generalizing c with
  | nil => exact h
  | cons f rest ih => exact ih (h.add f)

theorem Built.sorted (h : c.Built) : c.Sorted := by
  obtain ⟨functions, rfl⟩ := h
  exact sorted_empty.addAll functions

theorem Sorted.nodup (h : c.Sorted) : c.functions.Nodup := by
  refine List.Pairwise.imp ?_ h
  rintro f _ hlt rfl
  exact lt_irrefl f.name hlt

/-- Each function is the one that is found by its name. -/
theorem Sorted.get? (h : c.Sorted) (hf : f ∈ c.functions) : c.get? f.name = some f := by
  obtain ⟨functions⟩ := c
  unfold Sorted at h
  unfold Chunk.get?
  induction functions with
  | nil => cases hf
  | cons g rest ih =>
    obtain ⟨hg, hrest⟩ := List.pairwise_cons.mp h
    rcases List.mem_cons.mp hf with rfl | hf
    · exact List.find?_cons_of_pos (by simp)
    · have hne : g.name ≠ f.name := ne_of_lt (hg f hf)
      rw [List.find?_cons_of_neg (by simpa using hne)]
      exact ih hrest hf

theorem Sorted.ext (h : c.Sorted) (h' : c'.Sorted) (hmem : ∀ f, f ∈ c.functions ↔ f ∈ c'.functions) : c = c' := by
  have hperm := (List.perm_ext_iff_of_nodup h.nodup h'.nodup).mpr hmem
  have hfunctions : c.functions = c'.functions :=
    hperm.eq_of_pairwise (fun _ _ _ _ hlt hgt => absurd hgt (lt_asymm hlt)) h h'
  cases c
  cases c'
  exact congrArg Chunk.mk hfunctions

theorem insert_perm (h : ∀ g ∈ functions, g.name ≠ f.name) : (insert f functions).Perm (f :: functions) := by
  induction functions with
  | nil => rfl
  | cons g rest ih =>
    obtain ⟨hg, hrest⟩ := List.forall_mem_cons.mp h
    unfold insert
    split
    · rename_i heq
      exact absurd heq.symm hg
    · split
      · rfl
      · exact (List.Perm.cons g (ih hrest)).trans (.swap f g rest)

end

end Bytecode.Chunk
