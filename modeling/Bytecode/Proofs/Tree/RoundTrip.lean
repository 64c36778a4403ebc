import Bytecode.Proofs.Tree.Doubles
import Bytecode.Proofs.Tree.Numbers
import Bytecode.Proofs.Tree.Reading

/-! Written trees. What is written for a value is read back as the value as soon as enough arrays and objects may be opened for
    what is written, and not before (`Faithful`). This holds for the shapes and declarations in general, by induction on
    how many arrays and objects are written inside each other, as long as the doubles in the value are read back. The text
    of a program is then read back as the same program if at most 127 of them are open inside each other, and not read at
    all otherwise. -/

namespace Bytecode.Tree
open Json

/-- All of the doubles are finite, and they are read back. -/
def Library.Backs (L : Library) (doubles : List Float) : Prop :=
  ∀ x ∈ doubles, Double.isFinite x = true ∧ L.ReadsBack x

/-- What is written for a value can be written as a text, and it is read back just if there is room for its arrays and
objects. -/
structure Faithful (L : Library) (s : Shape) (v : s.Carrier) : Prop where
  strict : (L.write s v).Strict
  reads : ∀ depth, L.read depth s (L.write s v) = if (L.write s v).depth ≤ depth then some v else none

section
variable {L : Library}

/-! ### Scalars and lists -/

theorem Faithful.scalar {s : Shape} {v : s.Carrier} (hstrict : (L.write s v).Strict) (hdepth : (L.write s v).depth = 0)
    (hread : ∀ depth, L.read depth s (L.write s v) = some v) : Faithful L s v where
  strict := hstrict
  reads depth := by rw [hread, hdepth, if_pos depth.zero_le]

section
variable (hr : L.Reads) (hw : L.Writes)
include hr hw

theorem bool_faithful (b : Bool) : Faithful L .bool b := by
  refine .scalar ?_ ?_ fun depth => ?_
  · simp [hw.bool, Strict, tokens]
  · rw [hw.bool]
    rfl
  · rw [hr.bool, hw.bool]
    rfl

theorem int_faithful (n : Int64) : Faithful L .int n := by
  obtain ⟨k, hk, hstrict, hread⟩ := intJson_reads n
  rw [← hw.int] at hk
  refine .scalar ?_ ?_ fun depth => ?_
  · rw [hk]
    simpa [Strict, tokens] using hstrict
  · rw [hk]
    rfl
  · rw [hr.int, hk]
    exact hread

theorem double_faithful {x : Float} (hx : Double.isFinite x = true) (hback : L.ReadsBack x) : Faithful L .double x := by
  obtain ⟨k, hk, hstrict⟩ := hw.finite x hx
  have hwrite : L.write .double x = .num k := by rw [hw.double, hk, Option.elim_some]
  refine .scalar ?_ ?_ fun depth => ?_
  · rw [hwrite]
    simpa [Strict, tokens] using hstrict
  · rw [hwrite]
    rfl
  · rw [hr.double, hwrite]
    simp [readDouble, number?, hback k hk, hx]

theorem text_faithful (t : String) : Faithful L .text t := by
  refine .scalar ?_ ?_ fun depth => ?_
  · simp [hw.string, Strict, tokens]
  · rw [hw.string]
    rfl
  · rw [hr.string, hw.string]
    rfl

/-- What may be left out is written as null, which stands for no value of a declared type. -/
theorem option_faithful {n : Node} (v : Option n.Carrier) (h : ∀ a, v = some a → Faithful L (.node n) a) :
    Faithful L (.option n) v := by
  cases v with
  | none =>
    refine .scalar ?_ ?_ fun depth => ?_
    · simp [hw.absent, Strict, tokens]
    · rw [hw.absent]
      rfl
    · rw [hw.absent, hr.absent]
  | some a =>
    have hwritten := h a rfl
    have hwrite := hw.present n a
    have hpresent : L.write (.node n) a ≠ .null := by
      intro hnull
      have hread := hwritten.reads (L.write (.node n) a).depth
      rw [if_pos le_rfl, hnull, hr.null] at hread
      cases hread
    refine ⟨hwrite ▸ hwritten.strict, fun depth => ?_⟩
    rw [hwrite, hr.present n depth _ hpresent, hwritten.reads]
    split <;> rfl

end

theorem inside_written {α : Type} {a : α} {inner depth : Nat} {read : Nat → Option α}
    (h : ∀ n, read n = if inner ≤ n then some a else none) :
    inside depth read = if inner + 1 ≤ depth then some a else none := by
  cases depth with
  | zero => rfl
  | succ n => simp [inside, h]

theorem readItems_written {item : Shape} {vs : List item.Carrier} (h : ∀ v ∈ vs, Faithful L item v) (n : Nat) :
    (vs.map (L.write item)).mapM (L.read n item) = if itemsDepth (vs.map (L.write item)) ≤ n then some vs else none := by
  induction vs with
  | nil => rfl
  | cons v vs ih =>
    obtain ⟨hv, hvs⟩ := List.forall_mem_cons.mp h
    rw [List.map_cons, List.mapM_cons, hv.reads, ih hvs, itemsDepth]
    by_cases hfirst : (L.write item v).depth ≤ n <;> by_cases hrest : itemsDepth (vs.map (L.write item)) ≤ n <;>
      simp [hfirst, hrest]

theorem list_faithful (hr : L.Reads) (hw : L.Writes) {item : Shape} {vs : List item.Carrier}
    (h : ∀ v ∈ vs, Faithful L item v) : Faithful L (.list item) vs := by
  have hwrite := hw.list item vs
  refine ⟨?_, fun depth => ?_⟩
  · rw [hwrite]
    exact strict_arr (List.forall_mem_map.mpr fun v hv => (h v hv).strict)
  · rw [hr.list, hwrite]
    exact inside_written (readItems_written h)

/-! ### Fields -/

/-- What is written for each of the fields, or nothing. -/
def writtenFields (L : Library) : (fields : List FieldDecl) → FieldDecl.Values fields → List (Option Json)
  | [], _ => []
  | f :: fields, v => (if f.omitted v.1 then none else some (L.write f.shape v.1)) :: writtenFields L fields v.2

theorem presentMembers_written (fields : List FieldDecl) (v : FieldDecl.Values fields) :
    presentMembers (fields.map FieldDecl.name) (writtenFields L fields v) = writeFields L.write fields v := by
  induction fields with
  | nil => rfl
  | cons f fields ih =>
    rw [writtenFields, List.map_cons, presentMembers_cons, ih, writeFields]
    split <;> rfl

theorem fields?_written {fields : List FieldDecl} (hnodup : (fields.map FieldDecl.name).Nodup)
    (v : FieldDecl.Values fields) :
    (Json.obj (writeFields L.write fields v)).fields? (fields.map FieldDecl.name) = some (writtenFields L fields v) := by
  have hlength : ∀ (fields : List FieldDecl) (v : FieldDecl.Values fields),
      (writtenFields L fields v).length = (fields.map FieldDecl.name).length := by
    intro fields v
    induction fields with
    | nil => rfl
    | cons f fields ih => rw [writtenFields, List.length_cons, ih, List.map_cons, List.length_cons]
  rw [fields?_iff hnodup, ← presentMembers_written]
  exact .object (hlength fields v) (by simp) (.of_eq (List.append_nil _).symm)

/-- The hypothesis of the induction: whatever is written with few arrays and objects inside each other is faithful. -/
def FaithfulUpTo (L : Library) (bound : Nat) : Prop :=
  ∀ s v, (L.write s v).depth ≤ bound → L.Backs (s.doubles v) → Faithful L s v

theorem backs_append {L : Library} {xs ys : List Float} : L.Backs (xs ++ ys) ↔ L.Backs xs ∧ L.Backs ys :=
  List.forall_mem_append

section
variable {bound : Nat} (h : FaithfulUpTo L bound)
include h

theorem fields_faithful {fields : List FieldDecl} (hdefaults : ∀ f ∈ fields, ∀ v, f.omitted v = true → f.default = some v)
    {v : FieldDecl.Values fields} (hdepth : membersDepth (writeFields L.write fields v) ≤ bound)
    (hdoubles : L.Backs (FieldDecl.doubles fields v)) :
    (∀ m ∈ writeFields L.write fields v, m.2.Strict) ∧ ∀ n, readFields L.read n fields (writtenFields L fields v) =
      if membersDepth (writeFields L.write fields v) ≤ n then some v else none := by
  induction fields with
  | nil => exact ⟨nofun, fun n => rfl⟩
  | cons f fields ih =>
    obtain ⟨hf, hfields⟩ := List.forall_mem_cons.mp hdefaults
    obtain ⟨hfirst, hrest⟩ := backs_append.mp hdoubles
    obtain ⟨first, rest⟩ := v
    -- A field that is left out is read as its default, which is the value it had.
    by_cases homitted : f.omitted first = true
    · have hmembers : writeFields L.write (f :: fields) (first, rest) = writeFields L.write fields rest := by
        rw [writeFields, if_pos homitted, List.nil_append]
      have hvalues : writtenFields L (f :: fields) (first, rest) = none :: writtenFields L fields rest := by
        rw [writtenFields, if_pos homitted]
      rw [hmembers] at hdepth ⊢
      obtain ⟨hstrict, hreads⟩ := ih hfields hdepth hrest
      refine ⟨hstrict, fun n => ?_⟩
      rw [hvalues, readFields, hreads, readField, hf first homitted]
      split <;> rfl
    · have hmembers : writeFields L.write (f :: fields) (first, rest) =
          (some f.name, L.write f.shape first) :: writeFields L.write fields rest := by
        rw [writeFields, if_neg homitted, List.singleton_append]
      have hvalues : writtenFields L (f :: fields) (first, rest) =
          some (L.write f.shape first) :: writtenFields L fields rest := by
        rw [writtenFields, if_neg homitted]
      rw [hmembers, membersDepth, Nat.max_le] at hdepth
      obtain ⟨hstrict, hreads⟩ := ih hfields hdepth.2 hrest
      have hwritten := h f.shape first hdepth.1 hfirst
      rw [hmembers]
      refine ⟨List.forall_mem_cons.mpr ⟨hwritten.strict, hstrict⟩, fun n => ?_⟩
      rw [hvalues, readFields, hreads, readField, hwritten.reads, membersDepth]
      by_cases hfits : (L.write f.shape first).depth ≤ n <;>
        by_cases hothers : membersDepth (writeFields L.write fields rest) ≤ n <;> simp [hfits, hothers]

theorem parts_faithful {parts : List Shape} {v : Shape.Values parts}
    (hdepth : itemsDepth (writeParts L.write parts v) ≤ bound) (hdoubles : L.Backs (Shape.partDoubles parts v)) :
    (∀ j ∈ writeParts L.write parts v, j.Strict) ∧ ∀ n, readParts L.read n parts (writeParts L.write parts v) =
      if itemsDepth (writeParts L.write parts v) ≤ n then some v else none := by
  induction parts with
  | nil => exact ⟨nofun, fun n => rfl⟩
  | cons s parts ih =>
    obtain ⟨hfirst, hrest⟩ := backs_append.mp hdoubles
    obtain ⟨first, rest⟩ := v
    rw [writeParts, itemsDepth, Nat.max_le] at hdepth
    obtain ⟨hstrict, hreads⟩ := ih hdepth.2 hrest
    have hwritten := h s first hdepth.1 hfirst
    refine ⟨List.forall_mem_cons.mpr ⟨hwritten.strict, hstrict⟩, fun n => ?_⟩
    rw [writeParts, readParts, hreads, hwritten.reads, itemsDepth]
    by_cases hfits : (L.write s first).depth ≤ n <;> by_cases hothers : itemsDepth (writeParts L.write parts rest) ≤ n <;>
      simp [hfits, hothers]

end

theorem record_faithful {fields : List FieldDecl} (hsound : FieldDecl.Sound fields) {v : FieldDecl.Values fields}
    (h : FaithfulUpTo L (membersDepth (writeFields L.write fields v))) (hdoubles : L.Backs (FieldDecl.doubles fields v)) :
    (Json.obj (writeFields L.write fields v)).Strict ∧
      ∀ depth, readRecord L.read depth fields (.obj (writeFields L.write fields v)) =
        if (Json.obj (writeFields L.write fields v)).depth ≤ depth then some v else none := by
  obtain ⟨hstrict, hreads⟩ := fields_faithful h hsound.defaults le_rfl hdoubles
  refine ⟨strict_obj hstrict, fun depth => inside_written fun n => ?_⟩
  rw [fields?_written hsound.names]
  exact hreads n

/-! ### Variants -/

/-- What stands under the name of a variant is faithful. -/
theorem payload_faithful {p : Payload} (hp : p.Sound) {v : p.Carrier} {name : String} {body : Json}
    (hbody : writePayload L.write name p v = .obj [(some name, body)])
    (h : ∀ bound ≤ body.depth, FaithfulUpTo L bound) (hdoubles : L.Backs (p.doubles v)) :
    body.Strict ∧ ∀ n, readPayload L.read n p body = if body.depth ≤ n then some v else none := by
  cases p with
  | unit => cases hbody
  | one s =>
    cases hbody
    have hwritten := h _ le_rfl s v le_rfl hdoubles
    exact ⟨hwritten.strict, hwritten.reads⟩
  | tuple parts =>
    cases hbody
    obtain ⟨hstrict, hreads⟩ := parts_faithful (h _ (Nat.le_succ _)) le_rfl hdoubles
    exact ⟨strict_arr hstrict, fun n => inside_written hreads⟩
  | record fields =>
    cases hbody
    exact record_faithful hp (h _ (Nat.le_succ _)) hdoubles

theorem variant_faithful (hr : L.Reads) (hw : L.Writes) {n : Node} {variants : List (VariantDecl n.Carrier)}
    (hdecl : n.decl = .enum variants) {variant : VariantDecl n.Carrier} (hmem : variant ∈ variants)
    {v : variant.payload.Carrier} (h : ∀ bound < (L.write (.node n) (variant.make v)).depth, FaithfulUpTo L bound)
    (hdoubles : L.Backs (variant.payload.doubles v)) : Faithful L (.node n) (variant.make v) := by
  have hsound : (Decl.enum variants).Sound := hdecl ▸ n.sound
  have hfind := (find?_name_iff hsound.1).mpr ⟨hmem, rfl⟩
  have hwrite := hw.enum n variants hdecl variant hmem v
  have hread := hr.enum n variants hdecl
  by_cases hunit : variant.payload = .unit
  -- Without a payload only the name is written, and there is nothing to descend into.
  · obtain ⟨name, payload, make⟩ := variant
    cases hunit
    have hstr : L.write (.node n) (make v) = .str (some name) := hwrite
    refine .scalar ?_ ?_ fun depth => ?_
    · rw [hstr]
      simp [Strict, tokens]
    · rw [hstr]
      rfl
    · rw [hread, hstr]
      simp only [readVariant, hfind]
      rfl
  -- Any other payload is written as an object with the name as its only member.
  · obtain ⟨body, hbody⟩ : ∃ body, writePayload L.write variant.name variant.payload v = .obj [(some variant.name, body)] := by
      obtain ⟨name, payload, make⟩ := variant
      cases payload with
      | unit => exact absurd rfl hunit
      | one | tuple | record => exact ⟨_, rfl⟩
    rw [hbody] at hwrite
    have hdepth : (L.write (.node n) (variant.make v)).depth = body.depth + 1 := by
      rw [hwrite, Json.depth, membersDepth, membersDepth, Nat.max_zero]
    obtain ⟨hstrict, hreads⟩ := payload_faithful (hsound.2 variant hmem) hbody (fun bound hle => h bound (by omega)) hdoubles
    refine ⟨?_, fun depth => ?_⟩
    · rw [hwrite]
      exact strict_obj (by simpa using hstrict)
    · rw [hread, hdepth, hwrite]
      refine inside_written fun m => ?_
      simp only [hfind, Option.bind_eq_bind, Option.bind_some, hreads]
      split <;> rfl

/-! ### Values -/

/-- A value of a declared type is faithful if everything is that is written inside it. -/
theorem node_faithful (hr : L.Reads) (hw : L.Writes) {n : Node} {v : n.Carrier}
    (h : ∀ bound < (L.write (.node n) v).depth, FaithfulUpTo L bound) (hdoubles : L.Backs (n.doubles v)) :
    Faithful L (.node n) v := by
  have hmakes := n.makes v
  have hsound := n.sound
  cases hdecl : n.decl with
  | enum variants =>
    rw [hdecl] at hmakes
    obtain ⟨variant, hmem, x, rfl, hx⟩ := hmakes
    exact variant_faithful hr hw hdecl hmem h (hx ▸ hdoubles)
  | record fields make =>
    rw [hdecl] at hmakes hsound
    obtain ⟨x, rfl, hx⟩ := hmakes
    have hwrite := hw.record n fields make hdecl x
    have hbelow : FaithfulUpTo L (membersDepth (writeFields L.write fields x)) := by
      refine h _ ?_
      rw [hwrite, Json.depth]
      omega
    obtain ⟨hstrict, hreads⟩ := record_faithful hsound hbelow (hx ▸ hdoubles)
    refine ⟨hwrite ▸ hstrict, fun depth => ?_⟩
    rw [hr.record n fields make hdecl, hwrite, hreads]
    split <;> rfl

/-- Everything that is written is faithful, as long as its doubles are. -/
theorem faithfulUpTo (hr : L.Reads) (hw : L.Writes) (bound : Nat) : FaithfulUpTo L bound := by
  -- What a node or a list holds is written one level deeper; only an option is written as what it holds.
  induction bound using Nat.strong_induction_on with
  | _ bound ih =>
    have hnode : ∀ (n : Node) v, (L.write (.node n) v).depth ≤ bound → L.Backs (n.doubles v) → Faithful L (.node n) v :=
      fun n v hdepth hdoubles => node_faithful hr hw (fun m hm => ih m (by omega)) hdoubles
    intro s v hdepth hdoubles
    cases s with
    | bool => exact bool_faithful hr hw v
    | int => exact int_faithful hr hw v
    | double =>
      obtain ⟨hfinite, hback⟩ := hdoubles v (List.mem_singleton_self v)
      exact double_faithful hr hw hfinite hback
    | text => exact text_faithful hr hw v
    | node n => exact hnode n v hdepth hdoubles
    | option n =>
      refine option_faithful hr hw v fun a ha => ?_
      subst ha
      rw [hw.present n a] at hdepth
      exact hnode n a hdepth hdoubles
    | list item =>
      refine list_faithful hr hw fun a ha => ?_
      rw [hw.list item v, depth_arr_le_iff] at hdepth
      obtain ⟨n, hn, hall⟩ := hdepth
      have ha' := hall _ (List.mem_map_of_mem ha)
      exact ih (L.write item a).depth (by omega) item a le_rfl fun x hx => hdoubles x (List.mem_flatMap.mpr ⟨a, ha, hx⟩)

end

end Bytecode.Tree
