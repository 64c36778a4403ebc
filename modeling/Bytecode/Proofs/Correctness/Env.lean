import Bytecode.Proofs.Evaluation.Program
import Bytecode.Proofs.Lowering.Scope
import Bytecode.Proofs.Machine.Effect

/-! Environments and slots. The slots of a frame hold an environment if each variable in scope has its value in its slot;
    declaring, assigning and closing a block keep this up on both sides. -/

namespace Bytecode.Correctness
open Evaluation Lowering

/-- The value of a slot, null if it was never set. -/
def slotValue (locals : List Value) (slot : Nat) : Value :=
  locals[slot]?.getD .null

/-- The variables of a block with the values of their slots. -/
def blockView (locals : List Value) (block : List (String × Nat)) : List (String × Value) :=
  block.map fun b => (b.1, slotValue locals b.2)

/-- The environment that slots hold for the variables in open blocks. -/
def view (locals : List Value) (blocks : List (List (String × Nat))) : Env :=
  blocks.map (blockView locals)

/-- The slots of a frame hold an environment for the variables in scope, all of which have been set. -/
structure Holds (scope : Scope) (locals : List Value) (env : Env) : Prop where
  env_eq : env = view locals scope.blocks
  set : ∀ slot ∈ scope.slots, slot < locals.length

theorem slotValue_storeSlot (v : Value) (slot : Nat) (locals : List Value) (i : Nat) :
    slotValue (storeSlot v slot locals) i = if i = slot then v else slotValue locals i := by
  unfold slotValue
  rw [getElem?_storeSlot]
  split
  · rfl
  · split <;> rfl

/-! ### Names -/

theorem lookup_blockView (locals : List Value) (name : String) (block : List (String × Nat)) :
    (blockView locals block).lookup name = (block.lookup name).map (slotValue locals) := by
  induction block with
  | nil => rfl
  | cons b rest ih =>
    obtain ⟨other, slot⟩ := b
    simp only [blockView, List.map_cons, List.lookup_cons] at ih ⊢
    cases name == other with
    | true => rfl
    | false => exact ih

theorem find?_view (locals : List Value) (scope : Scope) (name : String) :
    (view locals scope.blocks).find? name = (scope.find? name).map (slotValue locals) := by
  unfold Env.find? Scope.find? view
  induction scope.blocks with
  | nil => rfl
  | cons block rest ih =>
    rw [List.map_cons, List.findSome?_cons, List.findSome?_cons, lookup_blockView]
    cases block.lookup name with
    | none => exact ih
    | some slot => rfl

/-! ### Stores -/

theorem blockView_storeSlot {slot : Nat} {block : List (String × Nat)} (h : slot ∉ block.map Prod.snd) (v : Value)
    (locals : List Value) : blockView (storeSlot v slot locals) block = blockView locals block := by
  refine List.map_congr_left fun b hb => ?_
  have hne : b.2 ≠ slot := fun heq => h (List.mem_map.mpr ⟨b, hb, heq⟩)
  rw [slotValue_storeSlot, if_neg hne]

theorem view_storeSlot {slot : Nat} {blocks : List (List (String × Nat))} (h : slot ∉ blocks.flatten.map Prod.snd)
    (v : Value) (locals : List Value) : view (storeSlot v slot locals) blocks = view locals blocks := by
  refine List.map_congr_left fun block hblock => blockView_storeSlot (fun hmem => h ?_) v locals
  obtain ⟨b, hb, heq⟩ := List.mem_map.mp hmem
  exact List.mem_map.mpr ⟨b, List.mem_flatten.mpr ⟨block, hblock, hb⟩, heq⟩

theorem blockView_set {name : String} {slot : Nat} {block : List (String × Nat)} (hlookup : block.lookup name = some slot)
    (hnodup : (block.map Prod.snd).Nodup) (v : Value) (locals : List Value) :
    blockView (storeSlot v slot locals) block = Env.setIn name v (blockView locals block) := by
  induction block with
  | nil => simp at hlookup
  | cons b rest ih =>
    obtain ⟨other, i⟩ := b
    rw [List.map_cons, List.nodup_cons] at hnodup
    by_cases hname : name = other
    · subst hname
      obtain rfl : i = slot := by simpa using hlookup
      have hrest := blockView_storeSlot hnodup.1 v locals
      simp only [blockView, List.map_cons, Env.setIn, if_true, slotValue_storeSlot] at hrest ⊢
      rw [hrest]
    · have hbeq : (name == other) = false := by simpa using hname
      rw [List.lookup_cons, hbeq] at hlookup
      have hne : i ≠ slot := by
        rintro rfl
        obtain ⟨before, behind, heq, -⟩ := List.lookup_eq_some_iff.mp hlookup
        exact hnodup.1 (by simp [heq])
      have hrest := ih hlookup hnodup.2
      simp only [blockView, List.map_cons, Env.setIn, if_neg hname, slotValue_storeSlot, if_neg hne] at hrest ⊢
      rw [hrest]

/-- Setting the slot that a name stands for sets the variable. -/
theorem view_set {name : String} {slot : Nat} {blocks : List (List (String × Nat))}
    (hfind : blocks.findSome? (fun block => block.lookup name) = some slot)
    (hnodup : (blocks.flatten.map Prod.snd).Nodup) (v : Value) (locals : List Value) :
    view (storeSlot v slot locals) blocks = (view locals blocks).set name v := by
  induction blocks with
  | nil => simp at hfind
  | cons block rest ih =>
    rw [List.flatten_cons, List.map_append, List.nodup_append] at hnodup
    obtain ⟨hblock, hrest, hdisjoint⟩ := hnodup
    rw [List.findSome?_cons] at hfind
    cases hlookup : block.lookup name with
    | some i =>
      rw [hlookup] at hfind
      obtain rfl := Option.some.inj hfind
      have hmem : i ∈ block.map Prod.snd := by
        obtain ⟨before, behind, heq, -⟩ := List.lookup_eq_some_iff.mp hlookup
        simp [heq]
      -- The slots of the blocks are distinct, so the other blocks do not see the write.
      have hout : i ∉ rest.flatten.map Prod.snd := fun h => hdisjoint i hmem i h rfl
      simp only [view, List.map_cons, Env.set, lookup_blockView, hlookup, Option.map_some, Option.isSome_some, if_true]
      rw [blockView_set hlookup hblock]
      exact congrArg _ (view_storeSlot hout v locals)
    | none =>
      rw [hlookup] at hfind
      have hmem : slot ∈ rest.flatten.map Prod.snd := Scope.mem_slots (s := ⟨rest, 0⟩) hfind
      have hout : slot ∉ block.map Prod.snd := fun h => hdisjoint slot h slot hmem rfl
      simp only [view, List.map_cons, Env.set, lookup_blockView, hlookup, Option.map_none, Option.isSome_none,
        Bool.false_eq_true, if_false]
      rw [blockView_storeSlot hout]
      exact congrArg _ (ih hfind hrest)

namespace Holds
variable {scope scope' : Scope} {locals : List Value} {env : Env}

theorem find? (h : Holds scope locals env) {name : String} {slot : Nat} (hslot : scope.find? name = some slot) :
    ∃ v, locals[slot]? = some v ∧ env.find? name = some v := by
  have hlt := h.set slot (Scope.mem_slots hslot)
  refine ⟨locals[slot], List.getElem?_eq_getElem hlt, ?_⟩
  rw [h.env_eq, find?_view, hslot]
  simp [slotValue, hlt]

theorem of_blocks (h : Holds scope locals env) (hblocks : scope'.blocks = scope.blocks) : Holds scope' locals env where
  env_eq := by rw [hblocks]; exact h.env_eq
  set := by rw [Scope.slots_congr hblocks]; exact h.set

theorem enter (h : Holds scope locals env) : Holds scope.enter locals env.enter where
  env_eq := congrArg _ h.env_eq
  set := h.set

theorem leave (h : Holds scope locals env) : Holds scope.leave locals env.leave where
  env_eq := by
    rw [h.env_eq]
    unfold Env.leave view Scope.leave
    rw [List.map_tail]
  set slot hslot := by
    refine h.set slot ?_
    unfold Scope.slots Scope.leave at *
    obtain ⟨b, hb, rfl⟩ := List.mem_map.mp hslot
    obtain ⟨block, hblock, hb⟩ := List.mem_flatten.mp hb
    exact List.mem_map.mpr ⟨b, List.mem_flatten.mpr ⟨block, List.mem_of_mem_tail hblock, hb⟩, rfl⟩

theorem lt_storeSlot (h : Holds scope locals env) (v : Value) (i : Nat) :
    ∀ slot ∈ scope.slots, slot < (storeSlot v i locals).length := by
  intro slot hslot
  rw [length_storeSlot]
  exact Nat.lt_of_lt_of_le (h.set slot hslot) (Nat.le_max_left _ _)

theorem declare (h : Holds scope locals env) (hn : scope.WellNumbered) (name : String) (v : Value) :
    Holds (scope.declare name) (storeSlot v scope.next locals) (env.declare name v) where
  env_eq := by
    have hnew : scope.next ∉ scope.slots := fun hmem => Nat.lt_irrefl _ (hn.lt_next _ hmem)
    have hview := view_storeSlot hnew v locals
    rw [h.env_eq]
    unfold Scope.declare Env.declare
    cases hblocks : scope.blocks with
    | nil => simp [view]
    | cons block rest =>
      rw [hblocks] at hview
      simp only [view, List.map_cons, List.cons.injEq] at hview ⊢
      rw [hview.2]
      simp only [blockView, List.map_cons, slotValue_storeSlot, if_true] at hview ⊢
      rw [hview.1]
      exact ⟨rfl, trivial⟩
  set slot hslot := by
    rcases Scope.mem_declare_slots hslot with rfl | hslot
    · rw [length_storeSlot]
      exact Nat.lt_of_lt_of_le (Nat.lt_succ_self _) (Nat.le_max_right _ _)
    · exact h.lt_storeSlot v _ slot hslot

theorem assign (h : Holds scope locals env) (hn : scope.WellNumbered) {name : String} {slot : Nat}
    (hslot : scope.find? name = some slot) (v : Value) : Holds scope (storeSlot v slot locals) (env.set name v) where
  env_eq := by rw [h.env_eq, view_set hslot hn.nodup]
  set := h.lt_storeSlot v slot

end Holds

theorem storeSlot_length (v : Value) (locals : List Value) : storeSlot v locals.length locals = locals ++ [v] := by
  induction locals with
  | nil => rfl
  | cons x rest ih => exact congrArg _ ih

theorem holds_declare_all {params : List Tree.Variable} {args : List Value} {scope : Scope} {locals : List Value} {env : Env}
    (hlen : params.length = args.length) (h : Holds scope locals env) (hn : scope.WellNumbered)
    (hnext : scope.next = locals.length) :
    Holds (params.foldl (fun s p => s.declare p.name) scope) (locals ++ args)
      ((params.zip args).foldl (fun env p => env.declare p.1.name p.2) env) := by
  induction params generalizing args scope locals env with
  | nil =>
    obtain rfl := List.length_eq_zero_iff.mp hlen.symm
    simpa using h
  | cons p params ih =>
    obtain ⟨v, args, rfl⟩ := List.exists_cons_of_length_eq_add_one hlen.symm
    have hstep := h.declare hn p.name v
    rw [hnext, storeSlot_length] at hstep
    have hrest := ih (by simpa using hlen) hstep (hn.declare p.name) (by simp [hnext])
    simpa using hrest

/-- The arguments of a function, one after the other in the first slots, hold its first environment. -/
theorem holds_args {params : List Tree.Variable} {args : List Value} (h : params.length = args.length) :
    Holds (paramScope params) args (Env.ofArgs params args) := by
  have hstart : Holds Scope.start [] [[]] := ⟨rfl, by simp [Scope.slots, Scope.start]⟩
  exact holds_declare_all h hstart .start rfl

end Bytecode.Correctness
