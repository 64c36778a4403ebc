import Bytecode.Proofs.Lowering.Control
import Bytecode.Proofs.Lowering.Renaming

/-! Aliases for the start of a path. A path can be split in two: what its first part leads to is given a name of its own, and
    the second part goes on from there. In the code this puts a store and a load between the two parts, and moves all
    slots and all indices behind them. -/

namespace Bytecode.Lowering
open Scoping

/-- A path is split between two segments, or in front of the subscript of its last segment: the path that goes first, and
the one that is left if the name `t` stands for what the first one leads to. -/
inductive Split (t : String) : List Tree.Segment → List Tree.Segment → List Tree.Segment → Prop where
  | segment (base : Tree.Segment) (before : List Tree.Segment) (next : Tree.Segment) (behind : List Tree.Segment) :
      Split t (base :: before ++ next :: behind) (base :: before) (.plain t :: next :: behind)
  | subscript (before : List Tree.Segment) (name : String) (subscript : Tree.Subscript) :
      Split t (before ++ [.indexed name subscript]) (before ++ [.plain name]) [.indexed t subscript]

/-- A statement that assigns to a path, reads one into a new variable or prints one, with an alias for the start of the
path. -/
inductive Alias (t : String) (type : Tree.TypeName) : Tree.Stmt → List Tree.Stmt → Prop where
  | assign {path first rest : List Tree.Segment} (value : Tree.Expr) (hsplit : Split t path first rest) :
      Alias t type (.assign ⟨path, value⟩) [.declare ⟨⟨t, type⟩, .path first⟩, .assign ⟨rest, value⟩]
  | declare {path first rest : List Tree.Segment} (var : Tree.Variable) (hsplit : Split t path first rest) :
      Alias t type (.declare ⟨var, .path path⟩) [.declare ⟨⟨t, type⟩, .path first⟩, .declare ⟨var, .path rest⟩]
  | print {path first rest : List Tree.Segment} (hsplit : Split t path first rest) :
      Alias t type (.print (.path path)) [.declare ⟨⟨t, type⟩, .path first⟩, .print (.path rest)]

/-! ### The code of a path in two parts -/

section
variable {layouts : Layouts} {s s' : Scope} {slot : Nat → Nat} {code : List Instr}

theorem ok_eq_pure {α : Type} (a : α) : (Except.ok a : Except Error α) = pure a := rfl

theorem fieldsCode_append (layouts : Layouts) (s : Scope) (before behind : List Tree.Segment) :
    fieldsCode layouts s (before ++ behind) = (do
      let a ← fieldsCode layouts s before
      let b ← fieldsCode layouts s behind
      return a ++ b) := by
  induction before with
  | nil =>
    simp only [List.nil_append, fieldsCode]
    exact (bind_pure _).symm
  | cons segment before ih =>
    simp only [List.cons_append, fieldsCode, ih, bind_assoc, pure_bind, List.append_assoc, List.cons_append]

theorem exprCode_append (layouts : Layouts) (s : Scope) (base : Tree.Segment) (before behind : List Tree.Segment) :
    exprCode layouts s (.path (base :: before ++ behind)) = (do
      let a ← exprCode layouts s (.path (base :: before))
      let b ← fieldsCode layouts s behind
      return a ++ b) := by
  simp only [List.cons_append, exprCode, fieldsCode_append, bind_assoc, pure_bind, List.append_assoc]

theorem setFieldCode_append (layouts : Layouts) (s : Scope) (value : Tree.Expr) (segment : Tree.Segment)
    (before : List Tree.Segment) (next : Tree.Segment) (behind : List Tree.Segment) :
    setFieldCode layouts s value segment (before ++ next :: behind) = (do
      let a ← fieldsCode layouts s (segment :: before)
      let b ← setFieldCode layouts s value next behind
      return a ++ b) := by
  induction before generalizing segment with
  | nil =>
    simp only [List.nil_append, setFieldCode, fieldsCode, ok_eq_pure, bind_assoc, pure_bind, List.append_nil]
  | cons segment' before ih =>
    simp only [List.cons_append, setFieldCode, ih, fieldsCode, bind_assoc, pure_bind, List.append_assoc]

theorem assignCode_append (layouts : Layouts) (s : Scope) (value : Tree.Expr) (base : Tree.Segment)
    (before : List Tree.Segment) (next : Tree.Segment) (behind : List Tree.Segment) :
    assignCode layouts s ⟨base :: before ++ next :: behind, value⟩ = (do
      let a ← exprCode layouts s (.path (base :: before))
      let b ← setFieldCode layouts s value next behind
      return a ++ b) := by
  cases before with
  | nil =>
    simp only [List.cons_append, List.nil_append, assignCode, exprCode, fieldsCode, ok_eq_pure, bind_assoc, pure_bind,
      List.append_nil]
  | cons segment before =>
    simp only [List.cons_append, assignCode, exprCode, setFieldCode_append, bind_assoc, pure_bind, List.append_assoc]

/-- The last instruction of the code leaves a value. -/
def Pushes (code : List Instr) : Prop :=
  ∃ init i, code = init ++ [i] ∧ i.pushes = true

theorem Pushes.append {more : List Instr} (h : Pushes more) (code : List Instr) : Pushes (code ++ more) := by
  obtain ⟨init, i, rfl, hi⟩ := h
  exact ⟨code ++ init, i, (List.append_assoc _ _ _).symm, hi⟩

theorem pushes_element {segment : Tree.Segment} (h : elementCode layouts s segment = .ok code) {i : Instr}
    (hi : i.pushes = true) : Pushes (i :: code) := by
  cases segment with
  | plain name =>
    cases h
    exact ⟨[], i, rfl, hi⟩
  | indexed name subscript =>
    obtain ⟨indices, -, heq⟩ := Except.bind_eq_ok_iff.mp h
    cases heq
    refine Pushes.append ⟨[], .op (elementGet subscript), rfl, ?_⟩ (i :: indices)
    cases subscript <;> rfl

theorem pushes_fields {segments : List Tree.Segment} (h : fieldsCode layouts s segments = .ok code) {first : List Instr}
    (hfirst : Pushes first) : Pushes (first ++ code) := by
  induction segments generalizing first code with
  | nil =>
    cases h
    rwa [List.append_nil]
  | cons segment rest ih =>
    simp only [fieldsCode, Except.bind_eq_ok_iff, Except.pure_eq_ok_iff] at h
    obtain ⟨element, helement, code', hrest, rfl⟩ := h
    rw [← List.append_assoc]
    exact ih hrest ((pushes_element helement rfl).append first)

/-- The code of a path leaves a value with its last instruction. -/
theorem pushes_path {path : List Tree.Segment} (h : exprCode layouts s (.path path) = .ok code) : Pushes code := by
  cases path with
  | nil => cases h
  | cons base rest =>
    simp only [exprCode, Except.bind_eq_ok_iff, Except.pure_eq_ok_iff] at h
    obtain ⟨n, -, element, helement, fields, hfields, rfl⟩ := h
    exact pushes_fields hfields (pushes_element helement rfl)

theorem segmentsMentions_append (before behind : List Tree.Segment) :
    segmentsMentions (before ++ behind) = segmentsMentions before ++ segmentsMentions behind := by
  induction before with
  | nil => rfl
  | cons segment before ih => rw [List.cons_append, segmentsMentions, segmentsMentions, ih, List.append_assoc]

theorem exprCode_variable {name : String} {m : Nat} (h : s.slot name = .ok m) :
    exprCode layouts s (.path [.plain name]) = .ok [.load m] := by
  have hslot : s.slot (Tree.Segment.plain name).name = .ok m := h
  simp only [exprCode, hslot, elementCode, fieldsCode]
  rfl

theorem exprCode_indexed {subscript : Tree.Subscript} (h : indicesCode layouts s subscript = .ok code) {t : String} {n : Nat}
    (hmaps : Maps slot s s' (subscriptMentions subscript)) (hfind : s'.find? t = some n) (target : Nat → Nat) :
    exprCode layouts s' (.path [.indexed t subscript]) =
      .ok (.load n :: (code ++ [Instr.op (elementGet subscript)]).map (Instr.rename slot target)) := by
  have hslot : s'.slot (Tree.Segment.indexed t subscript).name = .ok n := Scope.slot_eq_ok_iff.mpr hfind
  simp only [exprCode, hslot, elementCode, indicesCode_rename target subscript hmaps, h, fieldsCode]
  simp [ok_eq_pure]

/-- The code of a path that is split is that of its first part, and then such as can go on from a variable. -/
theorem exprCode_split {t : String} {path first rest : List Tree.Segment} (hsplit : Split t path first rest)
    (h : exprCode layouts s (.path path) = .ok code) :
    ∃ a b, code = a ++ b ∧ exprCode layouts s (.path first) = .ok a ∧
      ∀ (s' : Scope) (slot target : Nat → Nat) (n : Nat), Maps slot s s' (exprMentions (.path path)) →
        s'.find? t = some n →
        exprCode layouts s' (.path rest) = .ok (.load n :: b.map (Instr.rename slot target)) := by
  cases hsplit with
  | segment base before next behind =>
    rw [exprCode_append] at h
    obtain ⟨a, ha, h⟩ := Except.bind_eq_ok_iff.mp h
    obtain ⟨b, hb, heq⟩ := Except.bind_eq_ok_iff.mp h
    cases heq
    refine ⟨a, b, rfl, ha, fun s' slot target n hmaps hfind => ?_⟩
    -- Behind the split the slots are renamed; in front of it only the new one is read.
    have hbehind : Maps slot s s' (segmentsMentions (next :: behind)) := by
      have hsegments : Maps slot s s' (segmentsMentions (before ++ next :: behind)) := (maps_append.mp hmaps.rest).2
      rw [segmentsMentions_append] at hsegments
      exact (maps_append.mp hsegments).2
    have hslot : s'.slot (Tree.Segment.plain t).name = .ok n := Scope.slot_eq_ok_iff.mpr hfind
    simp only [exprCode, hslot, elementCode, fieldsCode_rename target (next :: behind) hbehind, hb]
    rfl
  | subscript before name subscript =>
    -- With a field in front the name is fetched first; without one it is a variable.
    cases before with
    | nil =>
      simp only [List.nil_append, exprCode, elementCode, fieldsCode, Except.bind_eq_ok_iff, Except.pure_eq_ok_iff,
        Except.ok.injEq] at h
      obtain ⟨m, hm, _, ⟨indices, hindices, rfl⟩, _, rfl, rfl⟩ := h
      refine ⟨[.load m], indices ++ [.op (elementGet subscript)], by simp, exprCode_variable hm,
        fun s' slot target n hmaps hfind => ?_⟩
      exact exprCode_indexed hindices (maps_append.mp hmaps.rest).1 hfind target
    | cons base before =>
      rw [exprCode_append] at h
      simp only [fieldsCode, elementCode, Except.bind_eq_ok_iff, Except.pure_eq_ok_iff, Except.ok.injEq] at h
      obtain ⟨a, ha, _, ⟨_, ⟨indices, hindices, rfl⟩, _, rfl, rfl⟩, rfl⟩ := h
      refine ⟨a ++ [.op (.getField name)], indices ++ [.op (elementGet subscript)], ?_, ?_,
        fun s' slot target n hmaps hfind => ?_⟩
      · simp [Tree.Segment.name]
      · rw [exprCode_append, ha]
        rfl
      · have hsegments : Maps slot s s' (segmentsMentions (before ++ [.indexed name subscript])) :=
          (maps_append.mp hmaps.rest).2
        rw [segmentsMentions_append] at hsegments
        exact exprCode_indexed hindices (maps_append.mp (maps_append.mp hsegments).2).1 hfind target

theorem setFieldCode_ne_nil {value : Tree.Expr} {segment : Tree.Segment} {rest : List Tree.Segment}
    (h : setFieldCode layouts s value segment rest = .ok code) : code ≠ [] := by
  rintro rfl
  cases rest with
  | nil => cases segment <;> simp [setFieldCode, Except.map_eq_ok_iff] at h
  | cons next rest => simp [setFieldCode, Except.bind_eq_ok_iff, Except.map_eq_ok_iff] at h

theorem setElementCode_ne_nil {subscript : Tree.Subscript} {value : Tree.Expr}
    (h : setElementCode layouts s subscript value = .ok code) : code ≠ [] := by
  simp only [setElementCode, Except.bind_eq_ok_iff, Except.pure_eq_ok_iff] at h
  obtain ⟨_, -, _, -, rfl⟩ := h
  simp

theorem assignMentions_append (base : Tree.Segment) (before : List Tree.Segment) (next : Tree.Segment)
    (behind : List Tree.Segment) (value : Tree.Expr) :
    assignMentions ⟨base :: before ++ next :: behind, value⟩ =
      .reads base.name :: segmentMentions base ++ segmentsMentions (before ++ next :: behind) ++ exprMentions value := by
  cases before with
  | nil => exact assignMentions_through base next behind value
  | cons segment before => exact assignMentions_through base segment (before ++ next :: behind) value

theorem Maps.behind {base next : Tree.Segment} {before behind : List Tree.Segment} {value : Tree.Expr}
    (h : Maps slot s s' (assignMentions ⟨base :: before ++ next :: behind, value⟩)) :
    Maps slot s s' (segmentsMentions (next :: behind) ++ exprMentions value) := by
  rw [assignMentions_append, segmentsMentions_append] at h
  obtain ⟨hpath, hvalue⟩ := maps_append.mp h
  exact maps_append.mpr ⟨(maps_append.mp (maps_append.mp hpath.rest).2).2, hvalue⟩

theorem assignCode_indexed {name : String} {subscript : Tree.Subscript} {value : Tree.Expr}
    (h : setElementCode layouts s subscript value = .ok code) {t : String} {n : Nat}
    (hmaps : Maps slot s s' (segmentsMentions [.indexed name subscript] ++ exprMentions value))
    (hfind : s'.find? t = some n) (target : Nat → Nat) :
    assignCode layouts s' ⟨[.indexed t subscript], value⟩ = .ok (.load n :: code.map (Instr.rename slot target)) := by
  have hslot : s'.slot t = .ok n := Scope.slot_eq_ok_iff.mpr hfind
  have hset : Maps slot s s' (subscriptMentions subscript ++ exprMentions value) := by
    simpa only [segmentsMentions, segmentMentions, List.append_nil] using hmaps
  simp only [assignCode, hslot, setElementCode_rename target hset, h]
  rfl

/-- The same for an assignment to a path. -/
theorem assignCode_split {t : String} {path first rest : List Tree.Segment} {value : Tree.Expr}
    (hsplit : Split t path first rest) (h : assignCode layouts s ⟨path, value⟩ = .ok code) :
    ∃ a b, code = a ++ b ∧ exprCode layouts s (.path first) = .ok a ∧ b ≠ [] ∧
      ∀ (s' : Scope) (slot target : Nat → Nat) (n : Nat), Maps slot s s' (assignMentions ⟨path, value⟩) →
        s'.find? t = some n →
        assignCode layouts s' ⟨rest, value⟩ = .ok (.load n :: b.map (Instr.rename slot target)) := by
  cases hsplit with
  | segment base before next behind =>
    -- An assignment fetches the elements on its way like an expression; only its last step is a write.
    rw [assignCode_append] at h
    obtain ⟨a, ha, h⟩ := Except.bind_eq_ok_iff.mp h
    obtain ⟨b, hb, heq⟩ := Except.bind_eq_ok_iff.mp h
    cases heq
    refine ⟨a, b, rfl, ha, setFieldCode_ne_nil hb, fun s' slot target n hmaps hfind => ?_⟩
    have hslot : s'.slot (Tree.Segment.plain t).name = .ok n := Scope.slot_eq_ok_iff.mpr hfind
    simp only [assignCode, hslot, elementCode, setFieldCode_rename target hmaps.behind, hb]
    rfl
  | subscript before name subscript =>
    cases before with
    | nil =>
      simp only [List.nil_append, assignCode, Except.bind_eq_ok_iff, Except.pure_eq_ok_iff] at h
      obtain ⟨m, hm, b, hb, rfl⟩ := h
      refine ⟨[.load m], b, rfl, exprCode_variable hm, setElementCode_ne_nil hb,
        fun s' slot target n hmaps hfind => ?_⟩
      have hset : Maps slot s s' (segmentsMentions [.indexed name subscript] ++ exprMentions value) := hmaps.rest
      exact assignCode_indexed hb hset hfind target
    | cons base before =>
      rw [assignCode_append] at h
      simp only [setFieldCode, Except.bind_eq_ok_iff, Except.pure_eq_ok_iff] at h
      obtain ⟨a, ha, _, ⟨b, hb, rfl⟩, rfl⟩ := h
      refine ⟨a ++ [.op (.getField name)], b, by simp, ?_, setElementCode_ne_nil hb,
        fun s' slot target n hmaps hfind => assignCode_indexed hb hmaps.behind hfind target⟩
      rw [exprCode_append, ha]
      rfl

/-! ### The code of a statement with an alias -/

/-- The code of a statement in two parts: the first path, and then code that can go on from a variable. -/
theorem stmtCode_alias {t : String} {type : Tree.TypeName} {st : Tree.Stmt} {new : List Tree.Stmt} {start : Nat}
    {after : Scope} (halias : Alias t type st new) (h : stmtCode layouts s start st = .ok (code, after)) :
    ∃ first st' a b, new = [.declare ⟨⟨t, type⟩, .path first⟩, st'] ∧ code = a ++ b ∧
      exprCode layouts s (.path first) = .ok a ∧ b ≠ [] ∧
      ∀ (s' : Scope) (slot target : Nat → Nat) (n start' : Nat), s.Renamed (· ≠ t) slot s' →
        (∀ x ∈ names (stmtMentions st), x ≠ t) → s'.find? t = some n →
        ∃ after', stmtCode layouts s' start' st' = .ok (.load n :: b.map (Instr.rename slot target), after') ∧
          after.Renamed (· ≠ t) slot after' := by
  cases halias with
  | @assign path first rest value hsplit =>
    simp only [stmtCode, Except.bind_eq_ok_iff, Except.pure_eq_ok_iff, Prod.mk.injEq] at h
    obtain ⟨code, ha, rfl, rfl⟩ := h
    -- The code of the path splits where the new variable takes over.
    obtain ⟨a, b, hcode, hfirst, hb, hrest⟩ := assignCode_split hsplit ha
    refine ⟨first, _, a, b, rfl, hcode, hfirst, hb, fun s' slot target n start' hscope hfresh hfind => ⟨s', ?_, hscope⟩⟩
    simp only [stmtCode, hrest s' slot target n (hscope.maps hfresh) hfind]
    rfl
  | @declare path first rest var hsplit =>
    simp only [stmtCode, declareCode, Except.bind_eq_ok_iff, Except.pure_eq_ok_iff, Prod.mk.injEq] at h
    obtain ⟨code, hinit, rfl, rfl⟩ := h
    obtain ⟨a, b, rfl, hfirst, hrest⟩ := exprCode_split hsplit hinit
    refine ⟨first, _, a, b ++ [.store s.next], rfl, List.append_assoc _ _ _, hfirst, by simp,
      fun s' slot target n start' hscope hfresh hfind => ⟨s'.declare var.name, ?_, hscope.declare var.name⟩⟩
    have hinit' := hrest s' slot target n (hscope.maps (forall_names_append.mp hfresh).1) hfind
    simp only [stmtCode, declareCode, hinit']
    simp [ok_eq_pure, hscope.slot_next]
  | @print path first rest hsplit =>
    simp only [Tree.Stmt.print, stmtCode, callCode, argsCode, Except.bind_eq_ok_iff, Except.pure_eq_ok_iff,
      Except.ok.injEq, Prod.mk.injEq] at h
    obtain ⟨_, ⟨_, ⟨code, hpath, _, rfl, rfl⟩, rfl⟩, rfl, rfl⟩ := h
    obtain ⟨a, b, rfl, hfirst, hrest⟩ := exprCode_split hsplit hpath
    refine ⟨first, _, a, b ++ [.write], rfl, by simp [callInstr, builtin?], hfirst, by simp,
      fun s' slot target n start' hscope hfresh hfind => ⟨s', ?_, hscope⟩⟩
    have hpath' := hrest s' slot target n (hscope.maps (forall_names_append.mp hfresh).1) hfind
    simp only [Tree.Stmt.print, stmtCode, callCode, argsCode, hpath']
    simp [ok_eq_pure, callInstr, builtin?, Instr.rename]

end

end Bytecode.Lowering
