import Bytecode.Job
import Bytecode.Proofs.Lowering.Chunks
import Bytecode.Proofs.Lowering.Reuse

/-! The order of definitions. Lowering asks the layouts for the fields of a struct and for nothing else, each function is
    lowered by itself, and a chunk has its functions in the order of their names; so neither the order of the structs nor
    that of the functions of a program shows in its chunk. -/

namespace Bytecode.Lowering

/-! ### Only the fields of the structs matter -/

/-- The layouts give the same fields to each struct. -/
def Layouts.Agree (layouts layouts' : Layouts) : Prop :=
  ∀ name, layouts.get? name = layouts'.get? name

section
variable {layouts layouts' : Layouts}

theorem Layouts.Agree.fields (h : layouts.Agree layouts') (name : String) : layouts.fields name = layouts'.fields name := by
  unfold Layouts.fields
  rw [h name]

mutual

/-- Code is the same with any layouts that give the same fields to each struct. -/
theorem exprCode_congr (h : layouts.Agree layouts') (scope : Scope) : ∀ e : Tree.Expr,
    exprCode layouts scope e = exprCode layouts' scope e
  | .literal _ => rfl
  | .path [] => rfl
  | .path (base :: rest) => by simp only [exprCode, elementCode_congr h scope base, fieldsCode_congr h scope rest]
  | .call _ args => by simp only [exprCode, argsCode_congr h scope args]
  | .newArray _ (.one length) => by simp only [exprCode, exprCode_congr h scope length]
  | .newArray _ (.two rows columns) => by
    simp only [exprCode, exprCode_congr h scope columns, exprCode_congr h scope rows]
  | .newStruct name => by simp only [exprCode, h.fields name]
  | .binary _ left right => by simp only [exprCode, exprCode_congr h scope left, exprCode_congr h scope right]
  | .not e => by simp only [exprCode, exprCode_congr h scope e]

theorem argsCode_congr (h : layouts.Agree layouts') (scope : Scope) : ∀ args : List Tree.Expr,
    argsCode layouts scope args = argsCode layouts' scope args
  | [] => rfl
  | e :: rest => by simp only [argsCode, exprCode_congr h scope e, argsCode_congr h scope rest]

theorem indicesCode_congr (h : layouts.Agree layouts') (scope : Scope) : ∀ subscript : Tree.Subscript,
    indicesCode layouts scope subscript = indicesCode layouts' scope subscript
  | .one index => exprCode_congr h scope index
  | .two row column => by simp only [indicesCode, exprCode_congr h scope row, exprCode_congr h scope column]

theorem elementCode_congr (h : layouts.Agree layouts') (scope : Scope) : ∀ segment : Tree.Segment,
    elementCode layouts scope segment = elementCode layouts' scope segment
  | .plain _ => rfl
  | .indexed _ subscript => by simp only [elementCode, indicesCode_congr h scope subscript]

theorem fieldsCode_congr (h : layouts.Agree layouts') (scope : Scope) : ∀ segments : List Tree.Segment,
    fieldsCode layouts scope segments = fieldsCode layouts' scope segments
  | [] => rfl
  | segment :: rest => by simp only [fieldsCode, elementCode_congr h scope segment, fieldsCode_congr h scope rest]

end

theorem setElementCode_congr (h : layouts.Agree layouts') (scope : Scope) (subscript : Tree.Subscript)
    (value : Tree.Expr) : setElementCode layouts scope subscript value = setElementCode layouts' scope subscript value := by
  simp only [setElementCode, indicesCode_congr h, exprCode_congr h]

theorem setFieldCode_congr (h : layouts.Agree layouts') (scope : Scope) (value : Tree.Expr) (segment : Tree.Segment)
    (rest : List Tree.Segment) :
    setFieldCode layouts scope value segment rest = setFieldCode layouts' scope value segment rest := by
  induction rest generalizing segment with
  | nil => cases segment <;> simp only [setFieldCode, exprCode_congr h, setElementCode_congr h]
  | cons next rest ih => simp only [setFieldCode, elementCode_congr h, ih]

theorem assignCode_congr (h : layouts.Agree layouts') (scope : Scope) (a : Tree.Assignment) :
    assignCode layouts scope a = assignCode layouts' scope a := by
  unfold assignCode
  simp only [exprCode_congr h, setElementCode_congr h, elementCode_congr h, setFieldCode_congr h]

theorem declareCode_congr (h : layouts.Agree layouts') (scope : Scope) (d : Tree.Declaration) :
    declareCode layouts scope d = declareCode layouts' scope d := by
  simp only [declareCode, exprCode_congr h]

mutual

theorem stmtCode_congr (h : layouts.Agree layouts') : ∀ (s : Tree.Stmt) (scope : Scope) (start : Nat),
    stmtCode layouts scope start s = stmtCode layouts' scope start s
  | .declare d, scope, _ => declareCode_congr h scope d
  | .assign a, scope, _ => by simp only [stmtCode, assignCode_congr h]
  | .call name args, scope, _ => by simp only [stmtCode, callCode, argsCode_congr h]
  | .choose first others otherwise, _, _ => by
    simp only [stmtCode, branchCode_congr h first, branchesCode_congr h others, stmtsCode_congr h otherwise]
  | .loop _ body, _, _ => by simp only [stmtCode, exprCode_congr h, stmtsCode_congr h body]
  | .count _ _ _ body, _, _ => by
    simp only [stmtCode, declareCode_congr h, exprCode_congr h, stmtsCode_congr h body, assignCode_congr h]
  | .ret _, _, _ => by simp only [stmtCode, exprCode_congr h]

theorem stmtsCode_congr (h : layouts.Agree layouts') : ∀ (stmts : List Tree.Stmt) (scope : Scope) (start : Nat),
    stmtsCode layouts scope start stmts = stmtsCode layouts' scope start stmts
  | [], _, _ => rfl
  | s :: rest, _, _ => by simp only [stmtsCode, stmtCode_congr h s, stmtsCode_congr h rest]

theorem branchCode_congr (h : layouts.Agree layouts') : ∀ (b : Tree.Branch) (scope : Scope) (start : Nat),
    branchCode layouts scope start b = branchCode layouts' scope start b
  | .mk _ body, _, _ => by simp only [branchCode, exprCode_congr h, stmtsCode_congr h body]

theorem branchesCode_congr (h : layouts.Agree layouts') : ∀ (bs : List Tree.Branch) (scope : Scope) (start : Nat),
    branchesCode layouts scope start bs = branchesCode layouts' scope start bs
  | [], _, _ => rfl
  | b :: rest, _, _ => by simp only [branchesCode, branchCode_congr h b, branchesCode_congr h rest]

end

theorem lowerFunction_congr (h : layouts.Agree layouts') (f : Tree.Function) :
    lowerFunction layouts f = lowerFunction layouts' f := by
  simp only [lowerFunction, functionCode, stmtsCode_congr h]

theorem lowerFunctions_congr (h : layouts.Agree layouts') (c : Chunk) (fs : List Tree.Function) :
    lowerFunctions layouts c fs = lowerFunctions layouts' c fs := by
  induction fs generalizing c with
  | nil => rfl
  | cons f rest ih => simp only [lowerFunctions, lowerFunction_congr h, ih]

end

/-! ### The order of structs -/

/-- If each name has one definition, it does not matter from which end it is searched for. -/
theorem lastFields?_eq_some_iff {structs : List Tree.Struct} (hnames : (structs.map fun s => s.name).Nodup)
    {name : String} {fields : List String} :
    lastFields? structs name = some fields ↔
      ∃ s ∈ structs, s.name = name ∧ (s.fields.map fun f => f.name) = fields := by
  unfold lastFields?
  rw [Option.map_eq_some_iff]
  constructor
  · rintro ⟨s, hfind, rfl⟩
    have hs : s ∈ structs := List.mem_reverse.mp (List.mem_of_find?_eq_some hfind)
    exact ⟨s, hs, by simpa using List.find?_some hfind, rfl⟩
  · rintro ⟨s, hs, hname, rfl⟩
    obtain ⟨s', hfind⟩ : ∃ s', (structs.reverse.find? fun s => s.name = name) = some s' := by
      rw [← Option.isSome_iff_exists, List.find?_isSome]
      exact ⟨s, List.mem_reverse.mpr hs, by simpa using hname⟩
    have hs' : s' ∈ structs := List.mem_reverse.mp (List.mem_of_find?_eq_some hfind)
    have hname' : s'.name = name := by simpa using List.find?_some hfind
    exact ⟨s', hfind, by rw [List.inj_on_of_nodup_map hnames hs' hs (hname'.trans hname.symm)]⟩

/-- With distinct names, each struct has its fields wherever it is defined. -/
theorem lastFields?_perm {structs structs' : List Tree.Struct} (hperm : structs.Perm structs')
    (hnames : (structs.map fun s => s.name).Nodup) (name : String) :
    lastFields? structs name = lastFields? structs' name := by
  have hnames' : (structs'.map fun s => s.name).Nodup := (hperm.map _).nodup_iff.mp hnames
  ext fields
  rw [lastFields?_eq_some_iff hnames, lastFields?_eq_some_iff hnames']
  exact exists_congr fun s => and_congr_left' hperm.mem_iff

theorem register_perm {structs structs' : List Tree.Struct} (hperm : structs.Perm structs')
    (hnames : (structs.map fun s => s.name).Nodup) :
    (Layouts.register {} structs).Agree (Layouts.register {} structs') := by
  intro name
  rw [Layouts.get?_register, Layouts.get?_register, lastFields?_perm hperm hnames]

/-! ### The order of functions -/

section
variable {layouts : Layouts} {c c' : Chunk} {fs fs' : List Tree.Function}

theorem lowerFunctions_sorted (h : lowerFunctions layouts c fs = .ok c') (hc : c.Sorted) : c'.Sorted := by
  induction fs generalizing c with
  | nil =>
    cases h
    exact hc
  | cons f rest ih =>
    obtain ⟨-, g, -, hrest⟩ := lowerFunctions_cons h
    exact ih hrest (hc.add g)

/-- Functions of different names that a chunk does not have can be lowered together if each can be lowered. -/
theorem exists_lowerFunctions (hnames : (fs.map fun f => f.name).Nodup) (hfresh : ∀ f ∈ fs, c.get? f.name = none)
    (heach : ∀ f ∈ fs, ∃ g, lowerFunction layouts f = .ok g) : ∃ c', lowerFunctions layouts c fs = .ok c' := by
  induction fs generalizing c with
  | nil => exact ⟨c, rfl⟩
  | cons f rest ih =>
    obtain ⟨hf, hrest⟩ := List.nodup_cons.mp hnames
    obtain ⟨g, hg⟩ := heach f List.mem_cons_self
    have hadd : ∀ f' ∈ rest, (c.add g).get? f'.name = none := by
      intro f' hf'
      rw [Chunk.get?_add, lowerFunction_name hg, if_neg]
      · exact hfresh f' (List.mem_cons_of_mem _ hf')
      · exact fun hname => hf (List.mem_map.mpr ⟨f', hf', hname.symm⟩)
    obtain ⟨c', hc'⟩ := ih hrest hadd fun f' hf' => heach f' (List.mem_cons_of_mem _ hf')
    refine ⟨c', ?_⟩
    rw [lowerFunctions, hfresh f List.mem_cons_self]
    exact Except.bind_eq_ok_iff.mpr ⟨g, hg, hc'⟩

/-- The chunk has just the functions that were lowered. -/
theorem mem_lowerFunctions_iff (h : lowerFunctions layouts {} fs = .ok c) {g : Function} :
    g ∈ c.functions ↔ ∃ f ∈ fs, lowerFunction layouts f = .ok g := by
  constructor
  · intro hg
    exact (lowerFunctions_mem h hg).resolve_left (List.not_mem_nil)
  · rintro ⟨f, hf, hg⟩
    obtain ⟨g', hg', hget⟩ := lowerFunctions_of_mem h hf
    obtain rfl : g' = g := Except.ok.inj (hg'.symm.trans hg)
    exact List.mem_of_find?_eq_some hget

/-- Chunks are sorted, so the order in which functions are added does not show. -/
theorem lowerFunctions_perm (hperm : fs.Perm fs') (h : lowerFunctions layouts {} fs = .ok c) :
    lowerFunctions layouts {} fs' = .ok c := by
  have hnames : (fs'.map fun f => f.name).Nodup := (hperm.map _).nodup_iff.mp (lowerFunctions_nodup h)
  have heach : ∀ f ∈ fs', ∃ g, lowerFunction layouts f = .ok g := fun f hf =>
    (lowerFunctions_of_mem h (hperm.mem_iff.mpr hf)).imp fun _ hg => hg.1
  obtain ⟨c', hc'⟩ := exists_lowerFunctions hnames (fun f _ => (rfl : Chunk.get? {} f.name = none)) heach
  -- Both chunks have the functions of all definitions, each in the order of the names.
  have hsame : c' = c := by
    refine (lowerFunctions_sorted hc' Chunk.sorted_empty).ext (lowerFunctions_sorted h Chunk.sorted_empty) fun g => ?_
    rw [mem_lowerFunctions_iff hc', mem_lowerFunctions_iff h]
    exact exists_congr fun f => and_congr_left' hperm.mem_iff.symm
  rw [← hsame, hc']

/-- Each function of the program has its own in the chunk, and there are no others. -/
theorem lowerFunctions_collects (h : lowerFunctions layouts c fs = .ok c') :
    ∃ gs, List.Forall₂ (fun f g => lowerFunction layouts f = .ok g) fs gs ∧ c'.functions.Perm (gs ++ c.functions) := by
  induction fs generalizing c with
  | nil =>
    cases h
    exact ⟨[], .nil, .refl _⟩
  | cons f rest ih =>
    obtain ⟨hnone, g, hg, hrest⟩ := lowerFunctions_cons h
    obtain ⟨gs, hgs, hperm⟩ := ih hrest
    have hother : ∀ g' ∈ c.functions, g'.name ≠ g.name := by
      intro g' hg' hname
      have hno := List.find?_eq_none.mp hnone g' hg'
      exact hno (by simpa [lowerFunction_name hg] using hname)
    have hadd : (c.add g).functions.Perm (g :: c.functions) := Chunk.insert_perm hother
    refine ⟨g :: gs, .cons hg hgs, ?_⟩
    exact (hperm.trans (hadd.append_left gs)).trans List.perm_middle

end

/-! ### Programs -/

/-- The function is lowered from the definition: it has its name, one argument for each parameter, and the code of its
body under the layouts. -/
structure LoweredFrom (layouts : Layouts) (f : Tree.Function) (g : Function) : Prop where
  name : g.name = f.name
  arity : g.arity = f.params.length
  code : functionCode layouts f = .ok g.code.toList

theorem loweredFrom_of_ok {layouts : Layouts} {f : Tree.Function} {g : Function} (h : lowerFunction layouts f = .ok g) :
    LoweredFrom layouts f g := by
  obtain ⟨code, hcode, hg⟩ := Except.bind_eq_ok_iff.mp h
  obtain rfl : _ = g := Except.ok.inj hg
  exact ⟨rfl, rfl, hcode⟩

theorem lower_perm {p p' : Tree.Program} {c : Chunk} (hfunctions : p.functions.Perm p'.functions)
    (hstructs : p.structs.Perm p'.structs) (hnames : (p.structs.map fun s => s.name).Nodup) (h : lower p = .ok c) :
    lower p' = .ok c := by
  have hsame : lowerFunctions (Layouts.register {} p'.structs) {} p.functions = .ok c := by
    rw [← lowerFunctions_congr (register_perm hstructs hnames)]
    exact h
  exact lowerFunctions_perm hfunctions hsame

/-- Reordering the functions of a program and its structs, if their names are different, changes neither whether it can be
lowered nor its chunk, so neither its listing nor its runs. The chunk has one function for each definition, which is the
one that any workbench, whatever it has lowered before, makes of this definition under the same layouts in whichever
program it stands. -/
theorem definition_order_is_irrelevant {p p' : Tree.Program} (hfunctions : p.functions.Perm p'.functions)
    (hstructs : p.structs.Perm p'.structs) (hnames : (p.structs.map fun s => s.name).Nodup) :
    (∀ c, (Workbench.lower {} p).1 = .ok c ↔ (Workbench.lower {} p').1 = .ok c) ∧
      ∀ c, (Workbench.lower {} p).1 = .ok c →
        (lower p).map Listing.text = .ok (Listing.text c) ∧ (lower p').map Listing.text = .ok (Listing.text c) ∧
        (∀ (m : Machine) (settings : Settings) (bound : Nat),
          m.runProgram? settings p' bound = m.runProgram? settings p bound ∧
            m.runProgram? settings p bound = m.execute? settings c bound) ∧
        (∃ gs, c.functions.Perm gs ∧
          List.Forall₂ (LoweredFrom (Layouts.register {} p.structs)) p.functions gs) ∧
        ∀ (b : Workbench) (q : Tree.Program) (d : Chunk), (b.lower q).1 = .ok d →
          (b.lower q).2.layouts.Agree (Layouts.register {} p.structs) →
            ∀ f ∈ p.functions, f ∈ q.functions → ∃ g, c.get? f.name = some g ∧ d.get? f.name = some g := by
  have hfresh : ∀ p, (Workbench.lower {} p).1 = lower p := fun p => Workbench.lower_result {} p
  have hnames' : (p'.structs.map fun s => s.name).Nodup := (hstructs.map _).nodup_iff.mp hnames
  refine ⟨fun c => ?_, fun c h => ?_⟩
  · rw [hfresh, hfresh]
    exact ⟨lower_perm hfunctions hstructs hnames, lower_perm hfunctions.symm hstructs.symm hnames'⟩
  · rw [hfresh] at h
    have h' : lower p' = .ok c := lower_perm hfunctions hstructs hnames h
    refine ⟨by rw [h]; rfl, by rw [h']; rfl, fun m settings bound => ?_, ?_, fun b q d hd hagree f hf hq => ?_⟩
    · simp only [Machine.runProgram?, h, h', and_self]
    · obtain ⟨gs, hgs, hperm⟩ := lowerFunctions_collects h
      refine ⟨gs, ?_, hgs.imp fun _ _ => loweredFrom_of_ok⟩
      simpa using hperm
    · rw [Workbench.lower_result] at hd
      rw [Workbench.layouts_lower] at hagree
      obtain ⟨g, hg, hget⟩ := lowerFunctions_of_mem h hf
      obtain ⟨g', hg', hget'⟩ := lowerFunctions_of_mem hd hq
      -- The code of a function depends on nothing of its program but the layouts.
      have hsame : lowerFunction (b.layouts.register q.structs) f = .ok g := (lowerFunction_congr hagree f).trans hg
      obtain rfl : g' = g := Except.ok.inj (hg'.symm.trans hsame)
      exact ⟨g', hget, hget'⟩

/-- A program with two structs and two functions. -/
def shapes : Tree.Program where
  structs := [
    ⟨"point", [⟨"x", { name := "int" }⟩, ⟨"y", { name := "int" }⟩]⟩,
    ⟨"size", [⟨"width", { name := "int" }⟩]⟩]
  functions := [
    { name := "main", result := .void, body := [
        .declare ⟨⟨"s", { name := "size" }⟩, .newStruct "size"⟩,
        .print (.call "corner" [.var "s"])] },
    { name := "corner", result := { name := "point" }, params := [⟨"s", { name := "size" }⟩], body := [
        .ret (.newStruct "point")] }]

/-- The chunk of the program. -/
def shapesChunk : Chunk where
  functions := [
    ⟨"corner", 1, #[.store 0, .op .newStruct, .op .dup, .op (.addField "x"), .op .dup, .op (.push .null),
      .op (.setField "x"), .op .dup, .op (.addField "y"), .op .dup, .op (.push .null), .op (.setField "y"), .ret]⟩,
    ⟨"main", 0, #[.op .newStruct, .op .dup, .op (.addField "width"), .op .dup, .op (.push .null),
      .op (.setField "width"), .store 0, .load 0, .call "corner", .write, .op (.push .null), .ret]⟩]

/-- The program with both its structs and its functions in the other order. -/
def shapesBackwards : Tree.Program where
  structs := shapes.structs.reverse
  functions := shapes.functions.reverse

theorem shapes_in_either_order :
    shapes.functions.Perm shapesBackwards.functions ∧ shapes.structs.Perm shapesBackwards.structs ∧
      (shapes.structs.map fun s => s.name).Nodup ∧
      (Workbench.lower {} shapes).1 = .ok shapesChunk ∧ (Workbench.lower {} shapesBackwards).1 = .ok shapesChunk := by
  have hfunctions : shapes.functions.Perm shapesBackwards.functions := (List.reverse_perm _).symm
  have hstructs : shapes.structs.Perm shapesBackwards.structs := (List.reverse_perm _).symm
  have hnames : (shapes.structs.map fun s => s.name).Nodup := by decide
  have hlower : (Workbench.lower {} shapes).1 = .ok shapesChunk := Workbench.lower_result {} shapes
  exact ⟨hfunctions, hstructs, hnames, hlower,
    ((definition_order_is_irrelevant hfunctions hstructs hnames).1 _).mp hlower⟩

end Bytecode.Lowering
