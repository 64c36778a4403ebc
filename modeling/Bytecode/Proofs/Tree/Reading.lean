import Bytecode.Proofs.Tree.Library
import Bytecode.Proofs.Tree.Spelling

/-! Reading is the inverse of spelling: a library reads a value from JSON if and only if the JSON value is one of its
    spellings. This is shown for the shapes and declarations in general, by induction on how many arrays and objects may
    be opened, once the spellings of the declared types are known to be those that their declarations say. A text is then
    read as a program if and only if it spells the program (`program_read_iff_spelled`). -/

namespace Bytecode.Tree
open Json Text

/-! ### The members of an object -/

section
variable {names : List String} {values : List (Option Json)} {members others : List (Option String × Json)}

/-- A permutation of two parts that a condition tells apart permutes each of them. -/
theorem perm_append_iff {α : Type} {p : α → Bool} {l chosen rest : List α} (hchosen : ∀ a ∈ chosen, p a = true)
    (hrest : ∀ a ∈ rest, p a = false) :
    l.Perm (chosen ++ rest) ↔ (l.filter p).Perm chosen ∧ (l.filter fun a => !p a).Perm rest := by
  have hkept : (chosen ++ rest).filter p = chosen := by
    rw [List.filter_append, List.filter_eq_self.mpr hchosen, List.filter_eq_nil_iff.mpr (by simpa using hrest),
      List.append_nil]
  have hdropped : (chosen ++ rest).filter (fun a => !p a) = rest := by
    rw [List.filter_append, List.filter_eq_nil_iff.mpr (by simpa using hchosen),
      List.filter_eq_self.mpr (by simpa using hrest), List.nil_append]
  constructor
  · intro hperm
    exact ⟨hkept ▸ hperm.filter p, hdropped ▸ hperm.filter fun a => !p a⟩
  · rintro ⟨hl, hr⟩
    exact (List.filter_append_perm p l).symm.trans (hl.append hr)

theorem mapM_iff {α β : Type} {f : α → Option β} {l : List α} {values : List β} :
    l.mapM f = some values ↔ List.Forall₂ (fun a value => f a = some value) l values := by
  induction l generalizing values with
  | nil => simp [eq_comm]
  | cons a rest ih =>
    rw [List.mapM_cons, List.forall₂_cons_left_iff]
    simp [Option.bind_eq_some_iff, ih, @eq_comm _ values]

/-- The members of an object that have a name. -/
def named (name : String) (value : Option Json) : List (Option String × Json) :=
  (value.map fun j => (some name, j)).toList

theorem presentMembers_cons (name : String) (value : Option Json) :
    presentMembers (name :: names) (value :: values) = named name value ++ presentMembers names values := by
  cases value <;> rfl

/-- A name has no value or the one value it is given; given twice, it is refused. -/
theorem member?_iff {name : String} {value : Option Json} :
    member? members name = some value ↔ (members.filter fun m => m.1 == some name).Perm (named name value) := by
  have hname : ∀ m ∈ members.filter fun m => m.1 == some name, m.1 = some name := by
    intro m hm
    simpa using (List.mem_filter.mp hm).2
  unfold member? named
  generalize members.filter (fun m => m.1 == some name) = found at hname
  rcases found with _ | ⟨m, _ | ⟨m', rest⟩⟩
  · cases value <;> simp
  · have hm := hname m (by simp)
    cases value <;> simp [Prod.ext_iff, hm]
  · cases value <;> simp

theorem name_mem_of_present {m : Option String × Json} (hm : m ∈ presentMembers names values) :
    ∃ name ∈ names, m.1 = some name := by
  obtain ⟨⟨name, value⟩, hfield, hvalue⟩ := List.mem_filterMap.mp hm
  obtain ⟨j, -, rfl⟩ := Option.map_eq_some_iff.mp hvalue
  exact ⟨name, (List.of_mem_zip hfield).1, rfl⟩

theorem member?_filter {name other : String} (hne : other ≠ name) :
    member? (members.filter fun m => !(m.1 == some name)) other = member? members other := by
  unfold member?
  congr 1
  rw [List.filter_filter]
  refine List.filter_congr fun m _ => ?_
  by_cases hm : m.1 = some other
  · simp [hm, hne]
  · simp [hm]

theorem forall₂_member?_filter {name : String} (hfresh : name ∉ names) :
    List.Forall₂ (fun other value => member? (members.filter fun m => !(m.1 == some name)) other = some value)
      names values ↔ List.Forall₂ (fun other value => member? members other = some value) names values := by
  simp only [List.forall₂_iff_zip]
  refine and_congr_right fun _ => forall₂_congr fun other value => forall_congr' fun hfield => ?_
  have hne : other ≠ name := by
    rintro rfl
    exact hfresh (List.of_mem_zip hfield).1
  rw [member?_filter hne]

/-- Looking names up one by one takes their members out of the others, in any order. -/
theorem forall₂_member?_iff (hnodup : names.Nodup) :
    List.Forall₂ (fun name value => member? members name = some value) names values ↔
      values.length = names.length ∧ ∃ others, (∀ m ∈ others, ∀ name ∈ names, m.1 ≠ some name) ∧
        members.Perm (presentMembers names values ++ others) := by
  induction names generalizing values members with
  | nil =>
    rcases values with _ | ⟨value, values⟩
    · have hall : ∃ others, members.Perm others := ⟨members, List.Perm.refl _⟩
      simpa [presentMembers] using hall
    · simp
  | cons name rest ih =>
    rcases values with _ | ⟨value, values⟩
    · simp
    obtain ⟨hfresh, hrest⟩ := List.nodup_cons.mp hnodup
    rw [List.forall₂_cons, ← forall₂_member?_filter hfresh, ih hrest, member?_iff, presentMembers_cons]
    -- the members of this name stand apart from those of the other names
    have hnamed : ∀ m ∈ named name value, (m.1 == some name) = true := by
      cases value <;> simp [named]
    have hpresent : ∀ m ∈ presentMembers rest values, (m.1 == some name) = false := by
      intro m hm
      obtain ⟨other, hother, hname⟩ := name_mem_of_present hm
      have hne : other ≠ name := by
        rintro rfl
        exact hfresh hother
      simpa [hname] using hne
    constructor
    · rintro ⟨hhead, hlength, others, hunknown, hperm⟩
      have hothers : ∀ m ∈ others, (m.1 == some name) = false := by
        intro m hm
        have hmem := hperm.symm.subset (List.mem_append_right _ hm)
        simpa using (List.mem_filter.mp hmem).2
      refine ⟨by simpa using hlength, others, ?_, ?_⟩
      · intro m hm other hother
        rcases List.mem_cons.mp hother with rfl | hother
        · simpa using hothers m hm
        · exact hunknown m hm other hother
      · rw [List.append_assoc]
        refine (perm_append_iff hnamed fun m hm => ?_).mpr ⟨hhead, hperm⟩
        exact (List.mem_append.mp hm).elim (hpresent m) (hothers m)
    · rintro ⟨hlength, others, hunknown, hperm⟩
      have hothers : ∀ m ∈ others, (m.1 == some name) = false := by
        intro m hm
        simpa using hunknown m hm name (by simp)
      rw [List.append_assoc] at hperm
      have hparts := (perm_append_iff hnamed fun m hm => (List.mem_append.mp hm).elim (hpresent m) (hothers m)).mp hperm
      refine ⟨hparts.1, by simpa using hlength, others, ?_, hparts.2⟩
      intro m hm other hother
      exact hunknown m hm other (List.mem_cons_of_mem _ hother)

/-- The values of fields are the members with their names, in any order and among unknown ones, or items in their
order. -/
theorem fields?_iff {j : Json} (hnodup : names.Nodup) : j.fields? names = some values ↔ Fields names j values := by
  constructor
  · intro h
    cases j with
    | arr items =>
      obtain ⟨hle, hvalues⟩ : items.length ≤ names.length ∧ _ := by simpa [fields?] using h
      subst hvalues
      exact .array (by omega)
    | obj members =>
      obtain ⟨htexts, hmembers⟩ : (∀ m ∈ members, m.1.isSome = true) ∧ names.mapM (member? members) = some values := by
        simpa [fields?] using h
      obtain ⟨hlength, others, hunknown, hperm⟩ := (forall₂_member?_iff hnodup).mp (mapM_iff.mp hmembers)
      refine .object hlength (fun m hm => ?_) hperm
      obtain ⟨name, hname⟩ := Option.isSome_iff_exists.mp (htexts m (hperm.symm.subset (List.mem_append_right _ hm)))
      exact ⟨name, hname, fun hmem => hunknown m hm name hmem hname⟩
    | null | bool b | num n | str s => cases h
  · rintro (⟨hlength, hunknown, hperm⟩ | hlength)
    · rename_i members others
      -- Names that are no texts are refused even where nothing is read.
      have htexts : ∀ m ∈ members, m.1.isSome = true := by
        intro m hm
        rcases List.mem_append.mp (hperm.subset hm) with hpresent | hother
        · obtain ⟨name, -, hname⟩ := name_mem_of_present hpresent
          rw [hname, Option.isSome_some]
        · obtain ⟨name, hname, -⟩ := hunknown m hother
          rw [hname, Option.isSome_some]
      have hmembers : names.mapM (member? members) = some values := by
        refine mapM_iff.mpr ((forall₂_member?_iff hnodup).mpr ⟨hlength, others, ?_, hperm⟩)
        intro m hm name hname heq
        obtain ⟨other, hother, hnot⟩ := hunknown m hm
        cases heq.symm.trans hother
        exact hnot hname
      rw [fields?, if_pos (List.all_eq_true.mpr htexts), hmembers]
    · rename_i items absent
      have habsent : absent = names.length - items.length := by omega
      simp [fields?, habsent]
      omega

end

/-! ### Spellings of shapes -/

section
variable (number : Numeral → Float)

/-- The spellings of the values of a declared type. -/
def Node.spelling : (n : Node) → n.Carrier → Spelling
  | .program, p => p.spelling number
  | .typeName, t => t.spelling
  | .var, v => v.spelling
  | .struct, s => s.spelling
  | .function, f => f.spelling number
  | .stmt, s => s.spelling number
  | .declaration, d => d.spelling number
  | .assignment, a => a.spelling number
  | .branch, b => b.spelling number
  | .call, c =>
    .record [.required "name" (.text c.1), .optional "args" (c.2 = []) (.list (c.2.map (Expr.spelling number)))]
  | .segment, s => s.spelling number
  | .subscript, s => s.spelling number
  | .operator, op => op.spelling
  | .literal, l => l.spelling number
  | .expr, e => e.spelling number

/-- The spellings of the values of a shape. -/
def Shape.spelling : (s : Shape) → s.Carrier → Spelling
  | .bool, b => .bool b
  | .int, n => .int n
  | .double, x => .double number x
  | .text, t => .text t
  | .list item, vs => .list (vs.map item.spelling)
  | .node n, v => n.spelling number v
  | .option _, none => .null
  | .option n, some v => n.spelling number v

/-- The fields of a record as they are declared. -/
def FieldDecl.spellings : (fields : List FieldDecl) → FieldDecl.Values fields → List Field
  | [], _ => []
  | f :: fields, v => ⟨f.name, some v.1 = f.default, f.shape.spelling number v.1⟩ :: spellings fields v.2

def Shape.spellings : (parts : List Shape) → Shape.Values parts → List Spelling
  | [], _ => []
  | s :: parts, v => s.spelling number v.1 :: spellings parts v.2

/-- The spellings of a variant with a name as it is declared. -/
def Payload.spelling (name : String) : (p : Payload) → p.Carrier → Spelling
  | .unit, _ => .unit name
  | .one s, v => .variant name (s.spelling number v)
  | .tuple parts, v => .variant name (.list (Shape.spellings number parts v))
  | .record fields, v => .variant name (.record (FieldDecl.spellings number fields v))

/-- A JSON value stands for a value of a type as the type is declared. -/
def Decl.Stands {α : Type} (depth : Nat) (j : Json) : Decl α → α → Prop
  | .record fields make, a => ∃ v, a = make v ∧ Spelling.record (FieldDecl.spellings number fields v) depth j
  | .enum variants, a =>
    ∃ variant ∈ variants, ∃ v, a = variant.make v ∧ variant.payload.spelling number variant.name v depth j

end

/-! ### The declared types -/

/-- No two fields have the same name, and a field that is not written has its default then. -/
@[mk_iff]
structure FieldDecl.Sound (fields : List FieldDecl) : Prop where
  names : (fields.map FieldDecl.name).Nodup
  defaults : ∀ f ∈ fields, ∀ v, f.omitted v = true → f.default = some v

def Payload.Sound : Payload → Prop
  | .record fields => FieldDecl.Sound fields
  | _ => True

/-- No two variants have the same name either. -/
def Decl.Sound {α : Type} : Decl α → Prop
  | .record fields _ => FieldDecl.Sound fields
  | .enum variants => (variants.map VariantDecl.name).Nodup ∧ ∀ v ∈ variants, v.payload.Sound

/-- Within a record or an enum all names are distinct, and what is left out of a record has its default. -/
theorem Node.sound (n : Node) : n.decl.Sound := by
  cases n <;> simp [Node.decl, Decl.Sound, Payload.Sound, FieldDecl.sound_iff]

section
variable {number : Numeral → Float} {depth : Nat} {j : Json}

theorem operator_stands (op : Operator) : (Node.decl .operator).Stands number depth j op ↔ op.spelling depth j := by
  cases op <;> simp [Node.decl, Decl.Stands, Payload.spelling, Operator.spelling]

theorem literal_stands (l : Literal) : (Node.decl .literal).Stands number depth j l ↔ l.spelling number depth j := by
  cases l <;> simp [Node.decl, Decl.Stands, Payload.spelling, Shape.spelling, Literal.spelling]

theorem subscript_stands (s : Subscript) : (Node.decl .subscript).Stands number depth j s ↔ s.spelling number depth j := by
  cases s <;>
    simp [Node.decl, Decl.Stands, Payload.spelling, Shape.spelling, Shape.spellings, Node.spelling, Subscript.spelling]

theorem expr_stands (e : Expr) : (Node.decl .expr).Stands number depth j e ↔ e.spelling number depth j := by
  cases e <;>
    simp [Node.decl, Decl.Stands, Payload.spelling, Shape.spelling, Node.spelling, FieldDecl.spellings, Expr.spelling,
      Field.optional, Field.required]

theorem stmt_stands (s : Stmt) : (Node.decl .stmt).Stands number depth j s ↔ s.spelling number depth j := by
  cases s <;>
    simp [Node.decl, Decl.Stands, Payload.spelling, Shape.spelling, Node.spelling, FieldDecl.spellings, Stmt.spelling,
      Field.optional, Field.required]

theorem segment_stands (s : Segment) : (Node.decl .segment).Stands number depth j s ↔ s.spelling number depth j := by
  cases s <;>
    simp [Node.decl, Decl.Stands, FieldDecl.spellings, Shape.spelling, Node.spelling, Segment.spelling, Field.optional,
      Field.required, Option.exists]

/-- The spellings of a declared type are those that its declaration says. -/
theorem Node.stands_iff (n : Node) (v : n.Carrier) :
    n.decl.Stands number depth j v ↔ n.spelling number v depth j := by
  cases n with
  | operator => exact operator_stands v
  | literal => exact literal_stands v
  | subscript => exact subscript_stands v
  | expr => exact expr_stands v
  | stmt => exact stmt_stands v
  | segment => exact segment_stands v
  | typeName =>
    obtain ⟨name, isArray⟩ := v
    cases isArray <;>
      simp [Node.decl, Decl.Stands, FieldDecl.spellings, Shape.spelling, Node.spelling, TypeName.spelling, Field.optional,
        Field.required]
  | var =>
    cases v
    simp [Node.decl, Decl.Stands, FieldDecl.spellings, Shape.spelling, Node.spelling, Variable.spelling, Field.required]
  | struct =>
    cases v
    simp [Node.decl, Decl.Stands, FieldDecl.spellings, Shape.spelling, Node.spelling, Struct.spelling, Field.required]
  | function =>
    cases v
    simp [Node.decl, Decl.Stands, FieldDecl.spellings, Shape.spelling, Node.spelling, Function.spelling, Field.optional,
      Field.required]
  | program =>
    cases v
    simp [Node.decl, Decl.Stands, FieldDecl.spellings, Shape.spelling, Node.spelling, Program.spelling, Field.optional,
      Field.required]
  | declaration | assignment | branch | call =>
    cases v
    simp [Node.decl, Decl.Stands, FieldDecl.spellings, Shape.spelling, Node.spelling, Declaration.spelling,
      Assignment.spelling, Branch.spelling, Field.optional, Field.required]

/-! ### Scalars -/

theorem text?_iff {t : String} : j.text? = some t ↔ Spelling.text t depth j := by
  cases j <;> simp [text?, Spelling.text]

theorem bool?_iff {b : Bool} : j.bool? = some b ↔ Spelling.bool b depth j := by
  cases j <;> simp [bool?, Spelling.bool]

/-- A number is an integer if it has neither fraction nor exponent, fits in 64 bits and is not a negative zero. -/
theorem int64?_iff {n : Int64} : j.int64? = some n ↔ Spelling.int n depth j := by
  cases j with
  | num k =>
    obtain ⟨negative, whole, fraction, exponent⟩ := k
    simp only [Json.int64?, Spelling.int, Spelling.scalar_iff, Option.ite_none_right_eq_some, Text.int64?_iff,
      Json.num.injEq, exists_eq_left', Numeral.toInt, digitsValue_eq, readDigits_eq, Bool.and_eq_true,
      List.isEmpty_iff, Option.isNone_iff_eq_none, and_assoc]
    refine and_congr_right fun _ => and_congr_right fun _ => ?_
    cases negative with
    | false => simp [eq_comm]
    | true =>
      simp
      omega
  | null | bool b | str s | arr items | obj members => simp [Json.int64?, Spelling.int]

theorem readDouble_iff {x : Float} : readDouble number j = some x ↔ Spelling.double number x depth j := by
  cases j with
  | num k =>
    simp only [readDouble, number?, Option.bind_some, Option.ite_none_right_eq_some, Option.some.injEq, Spelling.double,
      Spelling.scalar_iff, Json.num.injEq, exists_eq_left']
    refine and_comm.trans (and_congr_right fun hx => ?_)
    rw [hx]
  | null | bool b | str s | arr items | obj members => simp [readDouble, number?, Spelling.double]

/-! ### Lists, records and variants -/

/-- A value that is inside of another takes one level of what is left. -/
theorem inside_iff {α : Type} {read : Nat → Option α} {a : α} :
    inside depth read = some a ↔ ∃ n, depth = n + 1 ∧ read n = some a := by
  cases depth <;> simp [inside]

theorem items?_iff {items : List Json} : j.items? = some items ↔ j = .arr items := by
  cases j <;> simp [items?]

end

section
variable {number : Numeral → Float} {read : Reader} {depth : Nat}

/-- The readers agree with the spellings when so many arrays and objects may be opened. -/
def Agrees (number : Numeral → Float) (read : Reader) (depth : Nat) : Prop :=
  ∀ s v j, read depth s j = some v ↔ s.spelling number v depth j

/-- Lists are read where their items are, one level further down. -/
theorem readItems_iff {item : Shape} {vs : List item.Carrier} {j : Json} (h : ∀ n < depth, Agrees number read n) :
    readItems read depth item j = some vs ↔ Spelling.list (vs.map (item.spelling number)) depth j := by
  have hitems : ∀ n < depth, ∀ {items : List Json}, items.mapM (read n item) = some vs ↔
      List.Forall₂ (fun S j => S.Stands n j) (vs.map (item.spelling number)) items := by
    intro n hn items
    rw [mapM_iff, List.forall₂_map_left_iff]
    simp only [h n hn item]
    exact ⟨List.Forall₂.flip, List.Forall₂.flip⟩
  unfold readItems
  rw [inside_iff]
  constructor
  · rintro ⟨n, rfl, hread⟩
    obtain ⟨items, hj, hvs⟩ := Option.bind_eq_some_iff.mp hread
    exact ⟨n, items, rfl, items?_iff.mp hj, (hitems n n.lt_succ_self).mp hvs⟩
  · rintro ⟨n, items, rfl, rfl, hall⟩
    exact ⟨n, rfl, (hitems n n.lt_succ_self).mpr hall⟩

theorem readFields_iff (h : Agrees number read depth) {fields : List FieldDecl} {v : FieldDecl.Values fields}
    {values : List (Option Json)} :
    readFields read depth fields values = some v ↔
      List.Forall₂ (fun f value => f.Holds depth value) (FieldDecl.spellings number fields v) values := by
  induction fields generalizing values with
  | nil => cases values <;> simp [readFields, FieldDecl.spellings]
  | cons f fields ih =>
    cases values with
    | nil => simp [readFields, FieldDecl.spellings]
    | cons value values =>
      obtain ⟨first, rest⟩ := v
      have hfirst : readField read depth f value = some first ↔
          Field.Holds ⟨f.name, some first = f.default, f.shape.spelling number first⟩ depth value := by
        cases value with
        | none => exact eq_comm
        | some j => exact h f.shape first j
      rw [FieldDecl.spellings, List.forall₂_cons, ← hfirst, ← ih]
      simp [readFields, Option.bind_eq_some_iff]

theorem spellings_names {fields : List FieldDecl} {v : FieldDecl.Values fields} :
    (FieldDecl.spellings number fields v).map Field.name = fields.map FieldDecl.name := by
  induction fields with
  | nil => rfl
  | cons f fields ih => rw [FieldDecl.spellings, List.map_cons, ih, List.map_cons]

/-- Records are read where their fields are, whether by name or by position. -/
theorem readRecord_iff {fields : List FieldDecl} (hnodup : (fields.map FieldDecl.name).Nodup)
    {v : FieldDecl.Values fields} {j : Json} (h : ∀ n < depth, Agrees number read n) :
    readRecord read depth fields j = some v ↔ Spelling.record (FieldDecl.spellings number fields v) depth j := by
  unfold readRecord
  rw [inside_iff]
  constructor
  · rintro ⟨n, rfl, hread⟩
    obtain ⟨values, hvalues, hv⟩ := Option.bind_eq_some_iff.mp hread
    refine ⟨n, values, rfl, ?_, (readFields_iff (h n n.lt_succ_self)).mp hv⟩
    rw [spellings_names]
    exact (fields?_iff hnodup).mp hvalues
  · rintro ⟨n, values, rfl, hvalues, hholds⟩
    rw [spellings_names] at hvalues
    exact ⟨n, rfl, Option.bind_eq_some_iff.mpr
      ⟨values, (fields?_iff hnodup).mpr hvalues, (readFields_iff (h n n.lt_succ_self)).mpr hholds⟩⟩

theorem readParts_iff (h : Agrees number read depth) {parts : List Shape} {v : Shape.Values parts} {items : List Json} :
    readParts read depth parts items = some v ↔
      List.Forall₂ (fun S j => S.Stands depth j) (Shape.spellings number parts v) items := by
  induction parts generalizing items with
  | nil => cases items <;> simp [readParts, Shape.spellings]
  | cons s parts ih =>
    cases items with
    | nil => simp [readParts, Shape.spellings]
    | cons j items =>
      obtain ⟨first, rest⟩ := v
      rw [Shape.spellings, List.forall₂_cons, ← h s first j, ← ih]
      simp [readParts, Option.bind_eq_some_iff]

variable {α : Type} {a : α}

/-- Payloads are read from the one member of an object. -/
theorem readPayload_iff {p : Payload} (hp : p.Sound) {v : p.Carrier} {name : String} {body : Json}
    (h : ∀ n ≤ depth, Agrees number read n) :
    readPayload read depth p body = some v ↔ p.spelling number name v (depth + 1) (.obj [(some name, body)]) := by
  have hvariant : ∀ {S : Spelling}, Spelling.variant name S (depth + 1) (.obj [(some name, body)]) ↔ S depth body := by
    intro S
    constructor
    · rintro ⟨_, _, ⟨⟩, ⟨⟩, hbody⟩
      exact hbody
    · exact fun hbody => ⟨depth, body, rfl, rfl, hbody⟩
  have hbelow : ∀ n < depth, Agrees number read n := fun n hn => h n hn.le
  cases p with
  | unit => cases body <;> simp [readPayload, Payload.spelling, Spelling.unit]
  | one s => exact (h depth le_rfl s v body).trans hvariant.symm
  | record fields => exact (readRecord_iff hp.names hbelow).trans hvariant.symm
  | tuple parts =>
    refine Iff.trans ?_ hvariant.symm
    unfold readPayload
    rw [inside_iff]
    constructor
    · rintro ⟨n, rfl, hread⟩
      obtain ⟨items, hitems, hv⟩ := Option.bind_eq_some_iff.mp hread
      exact ⟨n, items, rfl, items?_iff.mp hitems, (readParts_iff (hbelow n n.lt_succ_self)).mp hv⟩
    · rintro ⟨n, items, rfl, rfl, hall⟩
      exact ⟨n, rfl, (readParts_iff (hbelow n n.lt_succ_self)).mpr hall⟩

/-- A variant is spelled by its name, if it holds nothing, or by an object with one member of its name. -/
theorem Payload.spelled_cases {p : Payload} {v : p.Carrier} {name : String} {j : Json}
    (h : p.spelling number name v depth j) :
    p = .unit ∧ j = .str (some name) ∨ ∃ n body, depth = n + 1 ∧ j = .obj [(some name, body)] := by
  cases p with
  | unit =>
    rcases h with rfl | ⟨hpos, rfl⟩
    · exact Or.inl ⟨rfl, rfl⟩
    · exact Or.inr ⟨depth - 1, .null, by omega, rfl⟩
  | one | tuple | record =>
    obtain ⟨n, body, hn, hj, -⟩ := h
    exact Or.inr ⟨n, body, hn, hj⟩

theorem find?_name_iff {variants : List (VariantDecl α)} (hnodup : (variants.map VariantDecl.name).Nodup) {name : String}
    {v : VariantDecl α} : variants.find? (fun v => v.name == name) = some v ↔ v ∈ variants ∧ v.name = name := by
  constructor
  · intro h
    exact ⟨List.mem_of_find?_eq_some h, by simpa using List.find?_some h⟩
  · rintro ⟨hv, rfl⟩
    obtain ⟨w, hw⟩ : ∃ w, variants.find? (fun w => w.name == v.name) = some w := by
      rw [← Option.isSome_iff_exists, List.find?_isSome]
      exact ⟨v, hv, beq_self_eq_true v.name⟩
    have hname : w.name = v.name := by simpa using List.find?_some hw
    rw [hw, List.inj_on_of_nodup_map hnodup (List.mem_of_find?_eq_some hw) hv hname]

/-- A variant is read from its name, if it holds nothing, or from what stands under its name. -/
theorem readVariant_iff {variants : List (VariantDecl α)} (hnodup : (variants.map VariantDecl.name).Nodup)
    (hsound : ∀ v ∈ variants, v.payload.Sound) {j : Json} (h : ∀ n < depth, Agrees number read n) :
    readVariant read depth variants j = some a ↔ (Decl.enum variants).Stands number depth j a := by
  -- A payload is inside of an object, one level further down.
  have hbelow : ∀ {n}, depth = n + 1 → ∀ m ≤ n, Agrees number read m := fun hn m hm => h m (by omega)
  constructor
  · intro hread
    unfold readVariant at hread
    split at hread
    · obtain ⟨v, hfind, hbare⟩ := Option.bind_eq_some_iff.mp hread
      obtain ⟨hv, rfl⟩ := (find?_name_iff hnodup).mp hfind
      obtain ⟨name, payload, make⟩ := v
      cases payload <;> cases hbare
      exact ⟨_, hv, (), rfl, Or.inl rfl⟩
    · obtain ⟨n, hn, hinner⟩ := inside_iff.mp hread
      obtain ⟨v, hfind, hbody⟩ := Option.bind_eq_some_iff.mp hinner
      obtain ⟨hv, rfl⟩ := (find?_name_iff hnodup).mp hfind
      obtain ⟨x, hx, ⟨⟩⟩ := Option.bind_eq_some_iff.mp hbody
      refine ⟨v, hv, x, rfl, ?_⟩
      rw [hn]
      exact (readPayload_iff (hsound v hv) (hbelow hn)).mp hx
    · cases hread
  · rintro ⟨v, hv, x, rfl, hstands⟩
    have hfind := (find?_name_iff hnodup).mpr ⟨hv, rfl⟩
    rcases Payload.spelled_cases hstands with ⟨hunit, rfl⟩ | ⟨n, body, hn, rfl⟩
    · obtain ⟨name, payload, make⟩ := v
      cases hunit
      simp only [readVariant, hfind]
      rfl
    · subst hn
      have hx := (readPayload_iff (hsound v hv) (hbelow rfl)).mpr hstands
      simp only [readVariant, inside, hfind, Option.bind_eq_bind, Option.bind_some, hx]
      rfl

end

/-! ### Libraries -/

namespace Library
variable {L : Library}

/-- Null is no value of a declared type. -/
theorem Reads.null (hL : L.Reads) (n : Node) (depth : Nat) : L.read depth (.node n) .null = none := by
  cases hdecl : n.decl with
  | record fields make =>
    rw [hL.record n fields make hdecl]
    cases depth <;> rfl
  | enum variants => exact hL.enum n variants hdecl depth .null

/-- What the library reads is what is spelled. -/
theorem Reads.agrees (hL : L.Reads) (depth : Nat) : Agrees L.number L.read depth := by
  induction depth using Nat.strong_induction_on with
  | _ depth ih =>
    -- Nodes first, since an optional value is a null or a node.
    have hnode : ∀ (n : Node) v j, L.read depth (.node n) j = some v ↔ n.spelling L.number v depth j := by
      intro n v j
      have hsound := n.sound
      rw [← Node.stands_iff]
      cases hdecl : n.decl with
      | record fields make =>
        rw [hdecl] at hsound
        rw [hL.record n fields make hdecl, Option.map_eq_some_iff]
        simp only [readRecord_iff hsound.names ih, Decl.Stands]
        exact exists_congr fun _ => and_comm.trans (and_congr_left' eq_comm)
      | enum variants =>
        rw [hdecl] at hsound
        rw [hL.enum n variants hdecl, readVariant_iff hsound.1 hsound.2 ih]
    intro s v j
    cases s with
    | bool => exact (hL.bool depth j).symm ▸ bool?_iff
    | int => exact (hL.int depth j).symm ▸ int64?_iff
    | double => exact (hL.double depth j).symm ▸ readDouble_iff
    | text => exact (hL.string depth j).symm ▸ text?_iff
    | list item => exact (hL.list item depth j).symm ▸ readItems_iff ih
    | node n => exact hnode n v j
    | option n =>
      by_cases hj : j = .null
      · subst hj
        rw [hL.absent]
        cases v with
        | none => simp [Shape.spelling, Spelling.null]
        | some v => simp [Shape.spelling, ← hnode, hL.null]
      · rw [hL.present n depth j hj]
        cases v with
        | none => simp [Shape.spelling, Spelling.null, hj]
        | some v => simp [Shape.spelling, hnode n v j]

end Library

end Bytecode.Tree
