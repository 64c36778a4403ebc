import Bytecode.Proofs.Tree.Library
import Bytecode.Proofs.Tree.Numbers

/-! The library with nearest doubles does what is relied on of a library: it reads and writes the declared types as their
    declarations say, and every finite double is read back. -/

namespace Bytecode.Tree

/-! ### Readers that agree on fewer levels -/

section
variable {read read' : Reader} {depth : Nat}

theorem inside_congr {α : Type} {f g : Nat → Option α} (h : ∀ n < depth, f n = g n) : inside depth f = inside depth g := by
  cases depth with
  | zero => rfl
  | succ n => exact h n n.lt_succ_self

theorem readFields_congr (h : read depth = read' depth) (fields : List FieldDecl) (values : List (Option Json)) :
    readFields read depth fields values = readFields read' depth fields values := by
  induction fields generalizing values with
  | nil => cases values <;> rfl
  | cons f fields ih =>
    cases values with
    | nil => rfl
    | cons value values =>
      have hfield : readField read depth f value = readField read' depth f value := by
        cases value with
        | none => rfl
        | some j => exact congrFun (congrFun h f.shape) j
      rw [readFields, readFields, hfield, ih]

theorem readRecord_congr (h : ∀ n < depth, read n = read' n) (fields : List FieldDecl) (j : Json) :
    readRecord read depth fields j = readRecord read' depth fields j :=
  inside_congr fun n hn => congrArg _ (funext fun values => readFields_congr (h n hn) fields values)

theorem readParts_congr (h : read depth = read' depth) (parts : List Shape) (items : List Json) :
    readParts read depth parts items = readParts read' depth parts items := by
  induction parts generalizing items with
  | nil => cases items <;> rfl
  | cons s parts ih =>
    cases items with
    | nil => rfl
    | cons j items => rw [readParts, readParts, h, ih]

theorem readPayload_congr (h : ∀ n ≤ depth, read n = read' n) (p : Payload) (j : Json) :
    readPayload read depth p j = readPayload read' depth p j := by
  cases p with
  | unit => cases j <;> rfl
  | one s => rw [readPayload, readPayload, h depth le_rfl]
  | tuple parts =>
    exact inside_congr fun n hn => congrArg _ (funext fun items => readParts_congr (h n hn.le) parts items)
  | record fields => exact readRecord_congr (fun n hn => h n hn.le) fields j

theorem readVariant_congr {α : Type} (h : ∀ n < depth, read n = read' n) (variants : List (VariantDecl α)) (j : Json) :
    readVariant read depth variants j = readVariant read' depth variants j := by
  unfold readVariant
  split
  · rfl
  · refine inside_congr fun n hn => congrArg _ (funext fun v => ?_)
    rw [readPayload_congr fun m hm => h m (by omega)]
  · rfl

/-- Reading a shape asks only for what is further inside. -/
theorem readShape_congr {number : Text.Numeral → Float} (h : ∀ n < depth, read n = read' n) :
    readShape read number depth = readShape read' number depth := by
  have hdecl : ∀ {α : Type} (d : Decl α) j, readDecl read depth d j = readDecl read' depth d j := by
    intro α d j
    cases d with
    | record fields make => rw [readDecl, readDecl, readRecord_congr h]
    | enum variants => exact readVariant_congr h variants j
  funext s j
  cases s with
  | bool | int | double | text => rfl
  | list item => exact inside_congr fun n hn => by rw [h n hn]
  | node n => exact hdecl n.decl j
  | option n => cases j <;> simp only [readShape, hdecl]

end

/-- As many levels as may be opened are enough. -/
theorem readLevels_eq {levels depth : Nat} (h : depth ≤ levels) :
    readLevels levels depth = readShape (fun n => readLevels n n) Text.Numeral.toDouble depth := by
  induction levels using Nat.strong_induction_on generalizing depth with
  | _ levels ih =>
    cases levels with
    | zero => exact readShape_congr (by omega)
    | succ levels =>
      refine readShape_congr fun n hn => ?_
      rw [ih levels levels.lt_succ_self (by omega), ← ih n (by omega) le_rfl]

theorem nearest_read (depth : Nat) :
    Library.nearest.read depth = readShape Library.nearest.read Text.Numeral.toDouble depth :=
  readLevels_eq le_rfl

theorem nearest_reads : Library.nearest.Reads where
  text s t v := by
    show (Json.parse? t).bind _ = _ ↔ _
    simp only [Option.bind_eq_some_iff, Json.parse?_iff]
    rfl
  bool depth j := by rw [nearest_read]; rfl
  int depth j := by rw [nearest_read]; rfl
  double depth j := by rw [nearest_read]; rfl
  string depth j := by rw [nearest_read]; rfl
  list item depth j := by rw [nearest_read]; rfl
  absent n depth := by rw [nearest_read]; rfl
  present n depth j hj := by
    rw [nearest_read]
    cases j with
    | null => exact absurd rfl hj
    | _ => rfl
  record n fields make hdecl depth j := by
    rw [nearest_read, readShape, hdecl]
    rfl
  enum n variants hdecl depth j := by
    rw [nearest_read, readShape, hdecl]
    rfl

/-! ### Written values -/

theorem exprsJson_eq (es : List Expr) : exprsJson es = es.map Expr.json := by
  induction es with
  | nil => rfl
  | cons e rest ih => rw [exprsJson, ih, List.map_cons]

theorem segmentsJson_eq (segments : List Segment) : segmentsJson segments = segments.map Segment.json := by
  induction segments with
  | nil => rfl
  | cons s rest ih => rw [segmentsJson, ih, List.map_cons]

theorem branchesJson_eq (branches : List Branch) : branchesJson branches = branches.map Branch.json := by
  induction branches with
  | nil => rfl
  | cons b rest ih => rw [branchesJson, ih, List.map_cons]

theorem stmtsJson_eq (stmts : List Stmt) : stmtsJson stmts = stmts.map Stmt.json := by
  induction stmts with
  | nil => rfl
  | cons s rest ih => rw [stmtsJson, ih, List.map_cons]

theorem nearest_writes : Library.nearest.Writes where
  text s v h := by
    rw [← Json.parse?_iff]
    exact Json.parse?_text h
  bool _ := rfl
  int _ := rfl
  double _ := rfl
  finite x hx := by
    obtain ⟨k, hk, hstrict, -⟩ := doubleNumeral?_reads hx
    exact ⟨k, hk, hstrict⟩
  string _ := rfl
  list _ _ := rfl
  absent _ := rfl
  present _ _ := rfl
  record n fields make hdecl v := by
    show n.json (make v) = .obj (writeFields Shape.json fields v)
    cases n <;> cases hdecl
    case segment =>
      obtain ⟨name, subscript | subscript, ⟨⟩⟩ := v <;> rfl
    all_goals
      simp [writeFields, Node.json, Shape.json, TypeName.json, Variable.json, Struct.json, Function.json, Program.json,
        Declaration.json, Assignment.json, Branch.json, record, textJson, exprsJson_eq, segmentsJson_eq, stmtsJson_eq]
  enum n variants hdecl := by
    show ∀ variant ∈ variants, ∀ v, n.json (variant.make v) = writePayload Shape.json variant.name variant.payload v
    cases n <;> cases hdecl <;>
      simp [writePayload, writeFields, writeParts, Node.json, Shape.json, Operator.name, Literal.json, Subscript.json,
        Expr.json, Stmt.json, variant, record, textJson, exprsJson_eq, segmentsJson_eq, branchesJson_eq, stmtsJson_eq]

/-- Every finite double is read back. -/
theorem nearest_readsBack {x : Float} (hx : Double.isFinite x = true) : Library.nearest.ReadsBack x := by
  intro k hk
  obtain ⟨k', hk', -, hread⟩ := doubleNumeral?_reads hx
  cases hk'.symm.trans hk
  exact hread

end Bytecode.Tree
