import Bytecode.Proofs.Lowering.Cases

/-! Scopes while statements are lowered. A statement adds to the innermost block alone, a block that is closed leaves the
    variables around it as they were, and slots are given out upwards and never twice. -/

namespace Bytecode.Lowering
namespace Scope

/-- The slots of all variables in scope, the innermost first. -/
def slots (s : Scope) : List Nat :=
  s.blocks.flatten.map Prod.snd

/-- The variables in scope have different slots, all of which have been given out. -/
structure WellNumbered (s : Scope) : Prop where
  nodup : s.slots.Nodup
  lt_next : ∀ slot ∈ s.slots, slot < s.next

variable {s t u : Scope}

@[simp] theorem enter_next (s : Scope) : s.enter.next = s.next := rfl

@[simp] theorem declare_next (s : Scope) (name : String) : (s.declare name).next = s.next + 1 := by
  unfold declare
  split <;> rfl

theorem slots_congr (h : t.blocks = s.blocks) : t.slots = s.slots := by
  unfold slots
  rw [h]

theorem mem_slots {name : String} {slot : Nat} (h : s.find? name = some slot) : slot ∈ s.slots := by
  obtain ⟨block, hblock, hlookup⟩ := List.exists_of_findSome?_eq_some h
  have hmem : (name, slot) ∈ block := by
    obtain ⟨before, behind, heq, -⟩ := List.lookup_eq_some_iff.mp hlookup
    simp [heq]
  exact List.mem_map.mpr ⟨(name, slot), List.mem_flatten.mpr ⟨block, hblock, hmem⟩, rfl⟩

/-- A declaration adds one slot, the next one. -/
theorem mem_declare_slots {name : String} {slot : Nat} (h : slot ∈ (s.declare name).slots) :
    slot = s.next ∨ slot ∈ s.slots := by
  unfold declare at h
  split at h
  · exact Or.inr h
  · rename_i block rest hblocks
    simp only [slots, List.flatten_cons, List.cons_append, List.map_cons, List.mem_cons] at h
    rcases h with h | h
    · exact Or.inl h
    · refine Or.inr ?_
      simpa [slots, hblocks] using h

theorem blocks_ne_nil {name : String} {slot : Nat} (h : s.find? name = some slot) : s.blocks ≠ [] := by
  intro hblocks
  simp [find?, hblocks] at h

theorem declare_blocks_ne_nil (h : s.blocks ≠ []) (name : String) : (s.declare name).blocks ≠ [] := by
  obtain ⟨block, rest, hblocks⟩ := List.exists_cons_of_ne_nil h
  simp [declare, hblocks]

theorem find?_declare_self (h : s.blocks ≠ []) (name : String) : (s.declare name).find? name = some s.next := by
  obtain ⟨block, rest, hblocks⟩ := List.exists_cons_of_ne_nil h
  simp [declare, find?, hblocks]

/-- A declaration hides no other name. -/
theorem find?_declare_of_ne {name other : String} (h : other ≠ name) (s : Scope) :
    (s.declare other).find? name = s.find? name := by
  have hbeq : (name == other) = false := beq_false_of_ne h.symm
  unfold declare
  split
  · rfl
  · rename_i block rest hblocks
    simp only [find?, hblocks, List.findSome?_cons, List.lookup_cons, hbeq]

namespace WellNumbered

theorem start : Scope.start.WellNumbered :=
  ⟨by simp [slots, Scope.start], by simp [slots, Scope.start]⟩

theorem enter (h : s.WellNumbered) : s.enter.WellNumbered :=
  ⟨h.nodup, h.lt_next⟩

/-- Giving out more slots does no harm. -/
theorem of_blocks (h : s.WellNumbered) (hblocks : t.blocks = s.blocks) (hnext : s.next ≤ t.next) : t.WellNumbered := by
  refine ⟨?_, fun slot hslot => ?_⟩
  · rw [slots_congr hblocks]
    exact h.nodup
  · rw [slots_congr hblocks] at hslot
    exact Nat.lt_of_lt_of_le (h.lt_next slot hslot) hnext

theorem declare (h : s.WellNumbered) (name : String) : (s.declare name).WellNumbered := by
  refine ⟨?_, fun slot hslot => ?_⟩
  · unfold Scope.declare
    split
    · exact h.nodup
    · rename_i block rest hblocks
      have hnew : s.next ∉ s.slots := fun hmem => Nat.lt_irrefl _ (h.lt_next _ hmem)
      have heq : (Scope.slots ⟨((name, s.next) :: block) :: rest, s.next + 1⟩) = s.next :: s.slots := by
        simp [slots, hblocks]
      rw [heq]
      exact List.nodup_cons.mpr ⟨hnew, h.nodup⟩
  · rw [declare_next]
    rcases mem_declare_slots hslot with rfl | hslot
    · exact Nat.lt_succ_self _
    · exact Nat.lt_succ_of_lt (h.lt_next slot hslot)

end WellNumbered

/-- What statements do to a scope: the blocks around the innermost one stay, and slots are only given out. -/
structure Grows (s t : Scope) : Prop where
  outer : t.blocks.tail = s.blocks.tail
  next : s.next ≤ t.next
  numbered : s.WellNumbered → t.WellNumbered

namespace Grows

theorem refl (s : Scope) : s.Grows s :=
  ⟨rfl, Nat.le_refl _, id⟩

theorem trans (h : s.Grows t) (h' : t.Grows u) : s.Grows u :=
  ⟨h'.outer.trans h.outer, Nat.le_trans h.next h'.next, h'.numbered ∘ h.numbered⟩

theorem declare (s : Scope) (name : String) : s.Grows (s.declare name) where
  outer := by
    unfold Scope.declare
    split
    · rfl
    · rename_i block rest hblocks
      rw [hblocks]
      rfl
  next := by simp
  numbered h := h.declare name

end Grows

/-- The same variables are in scope, and slots are only given out. -/
structure Keeps (s t : Scope) : Prop where
  blocks : t.blocks = s.blocks
  next : s.next ≤ t.next

namespace Keeps

theorem refl (s : Scope) : s.Keeps s :=
  ⟨rfl, Nat.le_refl _⟩

theorem trans (h : s.Keeps t) (h' : t.Keeps u) : s.Keeps u :=
  ⟨h'.blocks.trans h.blocks, Nat.le_trans h.next h'.next⟩

theorem numbered (h : s.Keeps t) (hs : s.WellNumbered) : t.WellNumbered :=
  hs.of_blocks h.blocks h.next

theorem grows (h : s.Keeps t) : s.Grows t :=
  ⟨by rw [h.blocks], h.next, h.numbered⟩

end Keeps

/-- A block that is closed leaves the variables around it. -/
theorem Grows.block (h : s.enter.Grows t) : s.Keeps t.leave :=
  ⟨h.outer, h.next⟩

end Scope

/-! ### Statements -/

/-- Statements add variables to the innermost block and leave the blocks around it as they are; branches leave all of
them. -/
theorem growCases (layouts : Layouts) : StmtCases layouts (fun scope _ _ _ scope' => scope.Grows scope')
    (fun scope _ _ _ scope' => scope.Grows scope') (fun scope _ _ _ scope' => scope.Keeps scope')
    (fun scope _ _ _ scope' => scope.Keeps scope') where
  declare _ := .declare _ _
  assign _ := .refl _
  call _ := .refl _
  choose _ hfirst _ hothers _ hotherwise := ((hfirst.trans hothers).trans hotherwise.block).grows
  loop _ _ hbody := hbody.block.grows
  count _ _ _ hbody _ := ((Scope.Grows.declare _ _).trans hbody.block.grows).block.grows
  ret _ := .refl _
  none scope _ := .refl scope
  more _ hs _ hrest := hs.trans hrest
  branch _ _ hbody := hbody.block
  noBranches scope _ := .refl scope
  branches _ hb _ hrest := hb.trans hrest

section
variable {layouts : Layouts} {scope scope' : Scope} {start : Nat}

theorem stmtCode_grows {s : Tree.Stmt} {code : List Instr} (h : stmtCode layouts scope start s = .ok (code, scope')) :
    scope.Grows scope' :=
  (growCases layouts).stmt h

theorem stmtsCode_grows {stmts : List Tree.Stmt} {code : List Instr}
    (h : stmtsCode layouts scope start stmts = .ok (code, scope')) : scope.Grows scope' :=
  (growCases layouts).stmts h

theorem branchCode_keeps {b : Tree.Branch} {branch : List Instr × List Instr}
    (h : branchCode layouts scope start b = .ok (branch, scope')) : scope.Keeps scope' :=
  (growCases layouts).branchOf h

theorem branchesCode_keeps {bs : List Tree.Branch} {branches : List (List Instr × List Instr)}
    (h : branchesCode layouts scope start bs = .ok (branches, scope')) : scope.Keeps scope' :=
  (growCases layouts).branchesOf h

theorem paramScope_next (params : List Tree.Variable) : (paramScope params).next = params.length := by
  have hfold : ∀ s : Scope, (params.foldl (fun s p => s.declare p.name) s).next = s.next + params.length := by
    induction params with
    | nil => exact fun s => rfl
    | cons p rest ih =>
      intro s
      rw [List.foldl_cons, ih, Scope.declare_next, List.length_cons, Nat.add_right_comm, Nat.add_assoc]
  exact (hfold Scope.start).trans (Nat.zero_add _)

/-- The parameters have distinct slots, even where they share a name. -/
theorem paramScope_wellNumbered (params : List Tree.Variable) : (paramScope params).WellNumbered := by
  unfold paramScope
  generalize hs : Scope.start = s
  have h : s.WellNumbered := hs ▸ .start
  clear hs
  induction params generalizing s with
  | nil => exact h
  | cons p rest ih => exact ih _ (h.declare p.name)

theorem paramScope_blocks_ne_nil (params : List Tree.Variable) : (paramScope params).blocks ≠ [] := by
  unfold paramScope
  have h : Scope.start.blocks ≠ [] := List.cons_ne_nil _ _
  generalize Scope.start = s at h
  induction params generalizing s with
  | nil => exact h
  | cons p rest ih => exact ih _ (Scope.declare_blocks_ne_nil h p.name)

/-- Parameters hide no other names. -/
theorem find?_foldl_declare {params : List Tree.Variable} {name : String} (h : ∀ p ∈ params, p.name ≠ name) (s : Scope) :
    (params.foldl (fun s p => s.declare p.name) s).find? name = s.find? name := by
  induction params generalizing s with
  | nil => rfl
  | cons p rest ih =>
    obtain ⟨hp, hrest⟩ := List.forall_mem_cons.mp h
    rw [List.foldl_cons, ih hrest, Scope.find?_declare_of_ne hp]

/-- The slot of a parameter is its number, unless a later parameter has its name. -/
theorem find?_paramScope {params : List Tree.Variable} {i : Nat} {param : Tree.Variable}
    (hi : params[i]? = some param) (hlast : ∀ other ∈ params.drop (i + 1), other.name ≠ param.name) :
    (paramScope params).find? param.name = some i := by
  obtain ⟨hlt, rfl⟩ := List.getElem?_eq_some_iff.mp hi
  have hsplit : params = params.take i ++ params[i] :: params.drop (i + 1) := by
    rw [← List.drop_eq_getElem_cons hlt, List.take_append_drop]
  have hscope : paramScope params =
      (params.drop (i + 1)).foldl (fun s p => s.declare p.name) ((paramScope (params.take i)).declare params[i].name) := by
    conv_lhs => rw [hsplit]
    unfold paramScope
    rw [List.foldl_append, List.foldl_cons]
  rw [hscope, find?_foldl_declare hlast, Scope.find?_declare_self (paramScope_blocks_ne_nil _), paramScope_next,
    List.length_take_of_le (Nat.le_of_lt hlt)]

end

end Bytecode.Lowering
