import Bytecode.Proofs.Scoping.Scan
import Mathlib.Data.List.Induction

/-! Lexical scoping by a stack of blocks. Behind the mentions of a function up to any point, the scope that lowering keeps
    has a slot for a name just if the name is in scope, and the slot is the number of the declaration that the name means
    there. -/

namespace Bytecode
namespace Lowering.Scope

/-- The slot of the latest variable of a name in the block at a depth, the innermost one being at 0. -/
def findAt? (s : Scope) (depth : Nat) (name : String) : Option Nat :=
  s.blocks[depth]?.bind fun block => block.lookup name

theorem find?_eq_some_iff {s : Scope} {name : String} {slot : Nat} :
    s.find? name = some slot ↔
      ∃ depth, s.findAt? depth name = some slot ∧ ∀ depth' < depth, s.findAt? depth' name = none := by
  obtain ⟨blocks, next⟩ := s
  simp only [find?, findAt?]
  induction blocks with
  | nil => simp
  | cons block rest ih =>
    rw [List.findSome?_cons]
    -- A name of the innermost block is found there; any other is one block further out in the rest.
    cases hblock : block.lookup name with
    | some slot' =>
      constructor
      · intro h
        exact ⟨0, by simpa [hblock] using h, fun depth' hlt => absurd hlt (Nat.not_lt_zero depth')⟩
      · rintro ⟨depth, hdepth, hbefore⟩
        cases depth with
        | zero => simpa [hblock] using hdepth
        | succ depth => simpa [hblock] using hbefore 0 (Nat.succ_pos _)
    | none =>
      rw [ih]
      constructor
      · rintro ⟨depth, hdepth, hbefore⟩
        refine ⟨depth + 1, by simpa using hdepth, fun depth' hlt => ?_⟩
        cases depth' with
        | zero => simpa using hblock
        | succ depth' => simpa using hbefore depth' (Nat.lt_of_succ_lt_succ hlt)
      · rintro ⟨depth, hdepth, hbefore⟩
        cases depth with
        | zero => simp [hblock] at hdepth
        | succ depth =>
          exact ⟨depth, by simpa using hdepth, fun depth' hlt => by simpa using hbefore _ (Nat.succ_lt_succ hlt)⟩

section
variable {s : Scope} {name other : String} {depth : Nat}

@[simp] theorem findAt?_enter_zero : s.enter.findAt? 0 name = none := by
  simp [findAt?, enter]

@[simp] theorem findAt?_enter_succ : s.enter.findAt? (depth + 1) name = s.findAt? depth name := by
  simp [findAt?, enter]

@[simp] theorem findAt?_leave : s.leave.findAt? depth name = s.findAt? (depth + 1) name := by
  simp [findAt?, leave]

theorem findAt?_declare (h : s.blocks ≠ []) :
    (s.declare other).findAt? depth name =
      if depth = 0 ∧ name = other then some s.next else s.findAt? depth name := by
  obtain ⟨blocks, next⟩ := s
  obtain ⟨block, rest, rfl⟩ := List.exists_cons_of_ne_nil h
  cases depth with
  | zero =>
    by_cases hname : name = other
    · simp [findAt?, declare, hname]
    · have hne : (name == other) = false := by simpa using hname
      simp [findAt?, declare, hname, List.lookup_cons, hne]
  | succ depth => simp [findAt?, declare]

end
end Lowering.Scope

namespace Scoping
open Lowering

section
variable {before : List Mention} {m : Mention} {name other : String} {depth site : Nat}

theorem not_declared_opens : ¬Declared (before ++ [.opens]) name 0 site := by
  rw [declared_concat]
  rintro (⟨hm, -⟩ | ⟨depth, -, hnest⟩)
  · cases hm
  · cases hnest

theorem declared_opens : Declared (before ++ [.opens]) name (depth + 1) site ↔ Declared before name depth site := by
  simp [declared_concat, Mention.nest]

theorem declared_closes : Declared (before ++ [.closes]) name depth site ↔ Declared before name (depth + 1) site := by
  rw [declared_concat]
  constructor
  · rintro (⟨hm, -⟩ | ⟨depth', hdeclared, hnest⟩)
    · cases hm
    · cases depth' with
      | zero => cases hnest
      | succ depth' =>
        cases hnest
        exact hdeclared
  · intro h
    exact Or.inr ⟨depth + 1, h, rfl⟩

theorem declared_declares :
    Declared (before ++ [.declares other]) name depth site ↔
      (depth = 0 ∧ name = other ∧ site = sites before) ∨ Declared before name depth site := by
  rw [declared_concat]
  simp only [Mention.declares.injEq, Mention.nest, Option.some.injEq, exists_eq_right]
  constructor
  · rintro (⟨rfl, rfl, rfl⟩ | h)
    · exact Or.inl ⟨rfl, rfl, rfl⟩
    · exact Or.inr h
  · rintro (⟨rfl, rfl, rfl⟩ | h)
    · exact Or.inl ⟨rfl, rfl, rfl⟩
    · exact Or.inr h

end

/-- The scope behind mentions: it has given out a slot for each declaration, and each of its blocks has the latest
declaration of each name in the open block at the same depth. -/
structure Tracks (before : List Mention) (scope : Scope) : Prop where
  next : scope.next = sites before
  blocks : (nesting before).map (· + 1) = some scope.blocks.length
  found : ∀ name depth site, scope.findAt? depth name = some site ↔ Latest before name depth site
  missing : ∀ name depth, scope.findAt? depth name = none ↔ ∀ site, ¬Declared before name depth site

namespace Tracks
variable {before : List Mention} {scope : Scope} {m : Mention}

theorem start : Tracks [] Scope.start where
  next := rfl
  blocks := rfl
  found name depth site := by
    constructor
    · intro h
      cases depth <;> simp [Scope.findAt?, Scope.start] at h
    · intro h
      exact absurd h.declared not_declared_nil
  missing name depth := by
    cases depth <;> simp [Scope.findAt?, Scope.start, not_declared_nil]

/-- Both questions about a block have the answers that another block had before. -/
theorem same_answers (h : Tracks before scope) {name : String} {depth depth' : Nat} {before' : List Mention} {scope' : Scope}
    (hfind : scope'.findAt? depth' name = scope.findAt? depth name)
    (hdeclared : ∀ site, Declared before' name depth' site ↔ Declared before name depth site) :
    (∀ site, scope'.findAt? depth' name = some site ↔ Latest before' name depth' site) ∧
      (scope'.findAt? depth' name = none ↔ ∀ site, ¬Declared before' name depth' site) := by
  rw [hfind]
  refine ⟨fun site => ?_, ?_⟩
  · rw [h.found, Latest.congr hdeclared]
  · rw [h.missing]
    exact forall_congr' fun site => not_congr (hdeclared site).symm

theorem of_answers {before' : List Mention} {scope' : Scope} (hnext : scope'.next = sites before')
    (hblocks : (nesting before').map (· + 1) = some scope'.blocks.length)
    (hanswers : ∀ name depth, (∀ site, scope'.findAt? depth name = some site ↔ Latest before' name depth site) ∧
      (scope'.findAt? depth name = none ↔ ∀ site, ¬Declared before' name depth site)) : Tracks before' scope' :=
  ⟨hnext, hblocks, fun name depth site => (hanswers name depth).1 site, fun name depth => (hanswers name depth).2⟩

theorem opens (h : Tracks before scope) : Tracks (before ++ [.opens]) scope.enter := by
  refine of_answers (by simp [h.next, Mention.isDeclaration]) ?_ fun name depth => ?_
  · rw [nesting_concat]
    have hblocks := h.blocks
    cases hd : nesting before <;> simp_all [Mention.nest, Scope.enter]
  · cases depth with
    | zero =>
      refine ⟨fun site => ?_, ?_⟩
      · simp only [Scope.findAt?_enter_zero, reduceCtorEq, false_iff]
        exact fun hlatest => not_declared_opens hlatest.declared
      · simp only [Scope.findAt?_enter_zero, true_iff]
        exact fun site => not_declared_opens
    | succ depth => exact h.same_answers Scope.findAt?_enter_succ fun site => declared_opens

theorem closes (h : Tracks before scope) (hopen : (nesting (before ++ [.closes])).isSome = true) :
    Tracks (before ++ [.closes]) scope.leave := by
  refine of_answers (by simp [h.next, Mention.isDeclaration, Scope.leave]) ?_ fun name depth => ?_
  · rw [nesting_concat] at hopen ⊢
    have hblocks := h.blocks
    cases hd : nesting before with
    | none => simp [hd] at hopen
    | some depth =>
      cases depth with
      | zero => simp [hd, Mention.nest] at hopen
      | succ depth =>
        simp only [hd, Option.map_some, Option.some.injEq] at hblocks
        simp [Mention.nest, Scope.leave, ← hblocks]
  · exact h.same_answers Scope.findAt?_leave fun site => declared_closes

theorem declares (h : Tracks before scope) (other : String) :
    Tracks (before ++ [.declares other]) (scope.declare other) := by
  have hblocks : scope.blocks ≠ [] := by
    intro hnil
    have hlength := h.blocks
    rw [hnil] at hlength
    cases hd : nesting before <;> simp [hd] at hlength
  refine of_answers (by simp [h.next, Mention.isDeclaration]) ?_ fun name depth => ?_
  · rw [nesting_concat]
    have hlength := h.blocks
    obtain ⟨block, rest, hcons⟩ := List.exists_cons_of_ne_nil hblocks
    cases hd : nesting before <;> simp_all [Mention.nest, Scope.declare]
  · by_cases hhere : depth = 0 ∧ name = other
    · obtain ⟨rfl, rfl⟩ := hhere
      have hdeclared : ∀ site, Declared (before ++ [.declares name]) name 0 site ↔
          site = sites before ∨ Declared before name 0 site := by
        intro site
        simp [declared_declares]
      rw [Scope.findAt?_declare hblocks, if_pos ⟨rfl, rfl⟩, h.next]
      refine ⟨fun site => ?_, ?_⟩
      · -- The new declaration comes behind all earlier ones.
        constructor
        · rintro ⟨⟩
          refine ⟨(hdeclared _).mpr (Or.inl rfl), fun site' hsite' => ?_⟩
          rcases (hdeclared site').mp hsite' with rfl | hbefore
          · exact Nat.le_refl _
          · exact Nat.le_of_lt hbefore.lt_sites
        · rintro ⟨hsite, hle⟩
          rcases (hdeclared site).mp hsite with rfl | hbefore
          · rfl
          · have hnew := hle _ ((hdeclared _).mpr (Or.inl rfl))
            exact absurd hbefore.lt_sites (Nat.not_lt.mpr hnew)
      · simp only [reduceCtorEq, false_iff, not_forall, not_not]
        exact ⟨_, (hdeclared _).mpr (Or.inl rfl)⟩
    · have hfind : (scope.declare other).findAt? depth name = scope.findAt? depth name := by
        rw [Scope.findAt?_declare hblocks, if_neg hhere]
      refine h.same_answers hfind fun site => ?_
      rw [declared_declares]
      constructor
      · rintro (⟨rfl, rfl, -⟩ | hdeclared)
        · exact absurd ⟨rfl, rfl⟩ hhere
        · exact hdeclared
      · exact Or.inr

theorem uses (h : Tracks before scope) (hsite : m.isDeclaration = false) (hnest : ∀ depth, m.nest depth = some depth) :
    Tracks (before ++ [m]) scope := by
  refine of_answers (by simp [h.next, hsite]) ?_ fun name depth => h.same_answers rfl fun site => ?_
  · rw [nesting_concat, ← h.blocks]
    cases nesting before <;> simp [hnest]
  · rw [declared_concat]
    constructor
    · rintro (⟨rfl, -⟩ | ⟨depth', hdeclared, hdepth⟩)
      · cases hsite
      · rw [hnest] at hdepth
        cases hdepth
        exact hdeclared
    · intro hdeclared
      exact Or.inr ⟨depth, hdeclared, hnest depth⟩

/-- One more mention. -/
theorem move (h : Tracks before scope) (hopen : (nesting (before ++ [m])).isSome = true) :
    Tracks (before ++ [m]) (m.move scope) := by
  cases m with
  | opens => exact h.opens
  | closes => exact h.closes hopen
  | declares name => exact h.declares name
  | reads | targets | assigns | makes | nameless => exact h.uses rfl fun _ => rfl

/-- The scope that lowering keeps tracks the mentions of a function, as long as they do not close its outermost block. -/
theorem scopeAfter {before : List Mention} (hopen : (nesting before).isSome = true) :
    Tracks before (Scoping.scopeAfter Scope.start before) := by
  induction before using List.reverseRecOn with
  | nil => exact start
  | append_singleton before m ih =>
    obtain ⟨depth, hdepth⟩ := nesting_of_append hopen
    rw [Scoping.scopeAfter, List.foldl_append]
    exact (ih (by simp [hdepth])).move hopen

theorem find?_eq_some_iff (h : Tracks before scope) {name : String} {slot : Nat} :
    scope.find? name = some slot ↔ Resolves before name slot := by
  rw [Scope.find?_eq_some_iff, Resolves]
  refine exists_congr fun depth => ?_
  rw [h.found]
  refine and_congr_right fun _ => ?_
  constructor
  · intro hinner depth' site' hdeclared
    refine Nat.le_of_not_lt fun hlt => ?_
    exact (h.missing name depth').mp (hinner depth' hlt) site' hdeclared
  · intro hinnermost depth' hlt
    refine (h.missing name depth').mpr fun site' hdeclared => ?_
    exact absurd hlt (Nat.not_lt.mpr (hinnermost depth' site' hdeclared))

theorem find?_eq_none_iff (h : Tracks before scope) {name : String} : scope.find? name = none ↔ ¬Visible before name := by
  constructor
  · rintro hnone ⟨depth, site, hdeclared⟩
    rw [Scope.find?, List.findSome?_eq_none_iff] at hnone
    refine (h.missing name depth).mp ?_ site hdeclared
    cases hblock : scope.blocks[depth]? with
    | none => simp [Scope.findAt?, hblock]
    | some block => simpa [Scope.findAt?, hblock] using hnone block (List.mem_of_getElem? hblock)
  · intro hinvisible
    cases hfind : scope.find? name with
    | none => rfl
    | some slot =>
      obtain ⟨depth, hlatest, -⟩ := h.find?_eq_some_iff.mp hfind
      exact absurd ⟨depth, slot, hlatest.declared⟩ hinvisible

/-- At every point of a function. -/
theorem function {f : Tree.Function} {behind : List Mention} (h : functionMentions f = before ++ behind) :
    Tracks before (Scoping.scopeAfter Scope.start before) := by
  obtain ⟨depth, hdepth⟩ := nesting_function h
  exact scopeAfter (by simp [hdepth])

end Tracks
end Scoping
end Bytecode
