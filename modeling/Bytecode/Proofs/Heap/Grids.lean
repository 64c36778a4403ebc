import Bytecode.Proofs.Heap.Reads
import Mathlib.Data.Set.Function

/-! Two-dimensional arrays are matrices. Each row and column inside has a cell of its own, and all cells are taken
    (`offset_bijOn`); what a cell holds is what was written there last, by its row and column or by its index, whatever else
    the heap has been asked (`held?_after`). -/

namespace Bytecode.Heap

/-- The row and the column are in a grid of rows and columns. -/
def InGrid (rows columns row column : Int64) : Prop :=
  0 ≤ row.toInt ∧ row.toInt < rows.toInt ∧ 0 ≤ column.toInt ∧ column.toInt < columns.toInt

instance (rows columns row column : Int64) : Decidable (InGrid rows columns row column) :=
  inferInstanceAs (Decidable (_ ∧ _ ∧ _ ∧ _))

/-- The place of a cell among the cells of a grid, row by row. -/
def offset (columns row column : Int64) : Nat :=
  (row.toInt * columns.toInt + column.toInt).toNat

/-- What a request writes to the cell of a grid in a row and a column. -/
def written? (id columns row column : Int64) : Request → Option Value
  | .setCell id' row' column' v => if id' = id ∧ row' = row ∧ column' = column then some v else none
  | .setIndex id' i v =>
    if id' = id ∧ i.toInt = row.toInt * columns.toInt + column.toInt then some v else none
  | _ => none

/-! ### Rows, columns and cells -/

section
variable {rows columns row column : Int64}

theorem ediv_offset (row : Int) {column columns : Int} (hlow : 0 ≤ column) (hhigh : column < columns) :
    (row * columns + column) / columns = row := by
  have hpos : 0 < columns := by omega
  rw [Int.add_comm, Int.add_mul_ediv_right _ _ (by omega), Int.ediv_eq_zero_of_lt hlow hhigh, Int.zero_add]

theorem toNat_mul (hrows : 0 ≤ rows.toInt) (hcolumns : 0 ≤ columns.toInt) :
    ((rows.toInt.toNat * columns.toInt.toNat : Nat) : Int) = rows.toInt * columns.toInt := by
  push_cast
  rw [Int.toNat_of_nonneg hrows, Int.toNat_of_nonneg hcolumns]

theorem InGrid.bounds (hin : InGrid rows columns row column) :
    0 ≤ row.toInt * columns.toInt + column.toInt ∧
      row.toInt * columns.toInt + column.toInt < rows.toInt * columns.toInt := by
  obtain ⟨hrow, hrows, hcolumn, hcolumns⟩ := hin
  constructor
  · have := Int.mul_nonneg hrow (by omega : 0 ≤ columns.toInt)
    omega
  · have := Int.mul_le_mul_of_nonneg_right (by omega : row.toInt + 1 ≤ rows.toInt) (by omega : 0 ≤ columns.toInt)
    rw [Int.add_mul, Int.one_mul] at this
    omega

/-- A grid has the cells that its number of columns and its length allow. -/
theorem inside_iff_inGrid (hrows : 0 ≤ rows.toInt) (hcolumns : 0 ≤ columns.toInt) :
    Inside (rows.toInt.toNat * columns.toInt.toNat) columns.toInt.toNat row column ↔ InGrid rows columns row column := by
  rw [Inside, toNat_mul hrows hcolumns, Int.toNat_of_nonneg hcolumns]
  constructor
  · rintro ⟨hrow, hcolumn, hwidth, hin⟩
    refine ⟨hrow, ?_, hcolumn, hwidth⟩
    -- A row behind the last one would start behind the last cell.
    by_contra hge
    have := Int.mul_le_mul_of_nonneg_right (by omega : rows.toInt ≤ row.toInt) hcolumns
    omega
  · intro hin
    exact ⟨hin.1, hin.2.2.1, hin.2.2.2, hin.bounds.2⟩

theorem InGrid.toInt_offset (hin : InGrid rows columns row column) :
    (offset columns row column : Int) = row.toInt * columns.toInt + column.toInt :=
  Int.toNat_of_nonneg hin.bounds.1

theorem offset_inj {row' column' : Int64} (hin : InGrid rows columns row column) (hin' : InGrid rows columns row' column')
    (heq : offset columns row column = offset columns row' column') : row = row' ∧ column = column' := by
  have hoffset := hin.toInt_offset
  have hoffset' := hin'.toInt_offset
  rw [heq, hoffset'] at hoffset
  have hrow : row'.toInt = row.toInt := by
    rw [← ediv_offset row'.toInt hin'.2.2.1 hin'.2.2.2, hoffset, ediv_offset _ hin.2.2.1 hin.2.2.2]
  rw [hrow] at hoffset
  exact ⟨(Int64.toInt_inj.mp hrow).symm, Int64.toInt_inj.mp (by omega)⟩

/-- Each row and column in a grid has a cell of its own, and no cell is left over. -/
theorem offset_bijOn (hrows : 0 ≤ rows.toInt) (hcolumns : 0 ≤ columns.toInt) :
    Set.BijOn (fun p : Int64 × Int64 => offset columns p.1 p.2) {p | InGrid rows columns p.1 p.2}
      {k | k < rows.toInt.toNat * columns.toInt.toNat} := by
  refine ⟨?_, ?_, ?_⟩
  · rintro ⟨row, column⟩ (hin : InGrid rows columns row column)
    have hoffset := hin.toInt_offset
    have hlt := hin.bounds.2
    have hlength := toNat_mul hrows hcolumns
    show offset columns row column < _
    omega
  · rintro ⟨row, column⟩ hin ⟨row', column'⟩ hin' heq
    obtain ⟨rfl, rfl⟩ := offset_inj hin hin' heq
    rfl
  · intro k hk
    have hwidth : 0 < columns.toInt.toNat := Nat.pos_of_mul_pos_left (Nat.zero_lt_of_lt hk)
    -- The row and the column are the quotient and the remainder by the number of columns.
    obtain ⟨row, column, hrow, hcolumn, rfl⟩ :
        ∃ row column, row < rows.toInt.toNat ∧ column < columns.toInt.toNat ∧ row * columns.toInt.toNat + column = k :=
      ⟨_, _, Nat.div_lt_of_lt_mul (Nat.mul_comm _ _ ▸ hk), Nat.mod_lt k hwidth, Nat.div_add_mod' k _⟩
    have hrowInt := Int64.toInt_ofNat_of_lt (n := row) (by have := rows.toInt_lt; omega)
    have hcolumnInt := Int64.toInt_ofNat_of_lt (n := column) (by have := columns.toInt_lt; omega)
    refine ⟨(Int64.ofNat row, Int64.ofNat column), ?_, ?_⟩
    · show InGrid rows columns (Int64.ofNat row) (Int64.ofNat column)
      rw [InGrid, hrowInt, hcolumnInt]
      omega
    · show (_ : Int).toNat = _
      rw [hrowInt, hcolumnInt, ← Int.toNat_of_nonneg hcolumns]
      norm_cast

/-- The index of a cell in a grid can be computed without going around. -/
theorem InGrid.toInt_index (hin : InGrid rows columns row column) (hsize : rows.toInt * columns.toInt < 2 ^ 63) :
    (row * columns + column).toInt = row.toInt * columns.toInt + column.toInt := by
  obtain ⟨hlow, hhigh⟩ := hin.bounds
  have hcolumn := hin.2.2.1
  have hnonneg := Int.mul_nonneg hin.1 (by have := hin.2.2.2; omega : 0 ≤ columns.toInt)
  have hmul : (row * columns).toInt = row.toInt * columns.toInt := by
    rw [Int64.toInt_mul]
    exact Int.bmod_eq_of_le_mul_two (by omega) (by omega)
  rw [Int64.toInt_add, hmul]
  exact Int.bmod_eq_of_le_mul_two (by omega) (by omega)

end

/-! ### What a place holds in the course of time -/

section
variable {h : Heap} {p : Place} {r : Request} {q : Read} {v w : Value}

theorem held?_write (hwrite : r.write? = some (q, w)) (p : Place) :
    (h.perform r).2.held? p = if h.place? q = some p then some w else h.held? p := by
  have hanswer := answer_write (h := h) hwrite
  cases hplace : h.place? q with
  | some other =>
    rw [hplace] at hanswer
    rw [perform_of_ok hanswer]
    show (h.apply (other.change w)).held? p = _
    rw [held?_change (hasPlace_of_eq hplace).1]
    simp only [Option.some.injEq, eq_comm]
  | none =>
    obtain ⟨fault, hunheld⟩ := unheld_of_write hwrite (h.shape? q.id)
    rw [hplace, hunheld] at hanswer
    rw [perform_of_refused hanswer, if_neg nofun]

theorem id_ne_nextId (hfew : h.objectCount < 2 ^ 64) (hheld : h.held? p = some v) : p.id ≠ h.nextId := by
  intro hid
  have hnone : h.find? p.id = none := by rw [hid, find?_nextId hfew]
  cases p <;> simp only [Place.id] at hnone <;> simp [held?, hnone] at hheld

theorem held?_of_not_write (hfew : h.objectCount < 2 ^ 64) (hheld : h.held? p = some v) (hwrite : r.write? = none) :
    (h.perform r).2.held? p = some v := by
  cases hshape : r.shape? with
  | some s =>
    rcases answer_allocate (h := h) hshape with ⟨fault, hanswer⟩ | hanswer
    · rw [perform_of_refused hanswer]
      exact hheld
    · rw [perform_of_ok hanswer, ← hheld]
      exact held?_congr ((find?_add hfew _ _).trans (if_neg (id_ne_nextId hfew hheld)))
  | none =>
    obtain ⟨q, rfl⟩ : ∃ q : Read, r = q.request := by
      rcases request_cases r with hsome | hsome | hread
      · rw [hshape] at hsome
        cases hsome
      · rw [hwrite] at hsome
        cases hsome
      · exact hread
    rw [perform_read]
    exact hheld

end

/-! ### The cells of a grid in the course of time -/

/-- The heap has a grid of rows and columns with a number. -/
structure HasGrid (h : Heap) (id rows columns : Int64) : Prop where
  rows_nonneg : 0 ≤ rows.toInt
  columns_nonneg : 0 ≤ columns.toInt
  size : rows.toInt * columns.toInt < 2 ^ 63
  shape : h.shape? id = some (.array (rows.toInt.toNat * columns.toInt.toNat) (some columns.toInt.toNat))

section
variable {h : Heap} {id rows columns row column : Int64} {v : Value}

theorem HasGrid.place?_cell (hgrid : h.HasGrid id rows columns) (row column : Int64) :
    h.place? (.cell id row column) =
      if InGrid rows columns row column then some (.cell id (offset columns row column)) else none := by
  simp only [place?, hgrid.shape, offset, Int.toNat_of_nonneg hgrid.columns_nonneg]
  exact if_congr (inside_iff_inGrid hgrid.rows_nonneg hgrid.columns_nonneg) rfl rfl

theorem HasGrid.place?_index (hgrid : h.HasGrid id rows columns) (i : Int64) :
    h.place? (.index id i) =
      if Within (rows.toInt.toNat * columns.toInt.toNat) i then some (.cell id i.toInt.toNat) else none := by
  simp only [place?, hgrid.shape]

/-- The requests that write to a cell are those that give its row and column or its index. -/
theorem HasGrid.place?_cell_iff (hgrid : h.HasGrid id rows columns) (hin : InGrid rows columns row column)
    {id' row' column' : Int64} :
    h.place? (.cell id' row' column') = some (.cell id (offset columns row column)) ↔
      id' = id ∧ row' = row ∧ column' = column := by
  constructor
  · intro hplace
    obtain rfl : id = id' := (hasPlace_of_eq hplace).2
    rw [hgrid.place?_cell] at hplace
    split at hplace
    · rename_i hin'
      injection hplace with hplace
      injection hplace with _ heq
      exact ⟨rfl, offset_inj hin' hin heq⟩
    · cases hplace
  · rintro ⟨rfl, rfl, rfl⟩
    rw [hgrid.place?_cell, if_pos hin]

theorem HasGrid.place?_index_iff (hgrid : h.HasGrid id rows columns) (hin : InGrid rows columns row column)
    {id' i : Int64} :
    h.place? (.index id' i) = some (.cell id (offset columns row column)) ↔
      id' = id ∧ i.toInt = row.toInt * columns.toInt + column.toInt := by
  have hoffset := hin.toInt_offset
  constructor
  · intro hplace
    obtain rfl : id = id' := (hasPlace_of_eq hplace).2
    rw [hgrid.place?_index] at hplace
    split at hplace
    · rename_i hwithin
      injection hplace with hplace
      injection hplace with _ heq
      refine ⟨rfl, ?_⟩
      rw [← hoffset, ← heq, Int.toNat_of_nonneg hwithin.1]
    · cases hplace
  · rintro ⟨rfl, hi⟩
    have hwithin : Within (rows.toInt.toNat * columns.toInt.toNat) i := by
      rw [Within, hi, toNat_mul hgrid.rows_nonneg hgrid.columns_nonneg]
      exact hin.bounds
    rw [hgrid.place?_index, if_pos hwithin, hi]
    rfl

theorem place?_field_ne (h : Heap) (id id' : Int64) (name : String) (i : Nat) :
    h.place? (.field id' name) ≠ some (.cell id i) := by
  intro hplace
  simp only [place?] at hplace
  split at hplace <;> cases hplace

/-- One call sets the cell if it writes there, and leaves it as it was otherwise. -/
theorem HasGrid.held?_serve (hgrid : h.HasGrid id rows columns) (hfew : h.objectCount < 2 ^ 64)
    (hin : InGrid rows columns row column) (hheld : h.held? (.cell id (offset columns row column)) = some v) (c : Call) :
    (h.serve c).2.held? (.cell id (offset columns row column)) =
      some ((written? id columns row column c.request).getD v) := by
  -- Which allocations are refused has no influence on the grids that exist.
  have hgrid' : HasGrid { h with refuses := c.refuses } id rows columns :=
    ⟨hgrid.rows_nonneg, hgrid.columns_nonneg, hgrid.size, hgrid.shape⟩
  unfold serve
  cases hrequest : c.request with
  | setCell id' row' column' w =>
    rw [held?_write rfl, written?]
    by_cases hsame : id' = id ∧ row' = row ∧ column' = column
    · rw [if_pos ((hgrid'.place?_cell_iff hin).mpr hsame), if_pos hsame]
      rfl
    · rw [if_neg (mt (hgrid'.place?_cell_iff hin).mp hsame), if_neg hsame]
      exact hheld
  | setIndex id' i w =>
    rw [held?_write rfl, written?]
    by_cases hsame : id' = id ∧ i.toInt = row.toInt * columns.toInt + column.toInt
    · rw [if_pos ((hgrid'.place?_index_iff hin).mpr hsame), if_pos hsame]
      rfl
    · rw [if_neg (mt (hgrid'.place?_index_iff hin).mp hsame), if_neg hsame]
      exact hheld
  | addField id' name | setField id' name w =>
    rw [held?_write rfl, if_neg (place?_field_ne _ _ _ _ _)]
    exact hheld
  | newStruct | getField | newArray | newGrid | arrayLength | getIndex | getCell =>
    exact held?_of_not_write hfew hheld rfl

theorem HasGrid.after (hgrid : h.HasGrid id rows columns) (calls : List Call) : (h.after calls).HasGrid id rows columns :=
  ⟨hgrid.rows_nonneg, hgrid.columns_nonneg, hgrid.size, shape?_after hgrid.shape calls⟩

/-- Behind calls a cell holds what was written there last. -/
theorem HasGrid.held?_after (hgrid : h.HasGrid id rows columns) (hin : InGrid rows columns row column)
    (hheld : h.held? (.cell id (offset columns row column)) = some v) (calls : List Call)
    (hfew : (h.after calls).objectCount < 2 ^ 64) :
    (h.after calls).held? (.cell id (offset columns row column)) =
      some ((calls.filterMap fun c => written? id columns row column c.request).getLastD v) := by
  induction calls generalizing h v with
  | nil => exact hheld
  | cons c rest ih =>
    have hstep := hgrid.held?_serve (Nat.lt_of_le_of_lt (objectCount_le_after h (c :: rest)) hfew) hin hheld c
    have hlast := ih (hgrid.after [c]) hstep hfew
    refine hlast.trans ?_
    cases hwritten : written? id columns row column c.request with
    | none => simp only [List.filterMap_cons, hwritten, Option.getD_none]
    | some w => simp only [List.filterMap_cons, hwritten, Option.getD_some, List.getLastD_cons]

/-! ### New arrays -/

theorem newGrid_bounds {fill : Value} {change : Change} (hnew : h.newGrid rows columns fill = .ok change) :
    0 ≤ rows.toInt ∧ 0 ≤ columns.toInt ∧ rows.toInt * columns.toInt < 2 ^ 63 := by
  unfold newGrid at hnew
  split at hnew
  · cases hnew
  · rename_i hneg
    rw [lt_zero_iff, lt_zero_iff] at hneg
    dsimp only at hnew
    split at hnew
    · cases hnew
    · rename_i hsize
      have hrows : 0 ≤ rows.toInt := by omega
      have hcolumns : 0 ≤ columns.toInt := by omega
      refine ⟨hrows, hcolumns, ?_⟩
      rw [← toNat_mul hrows hcolumns]
      exact_mod_cast Nat.lt_of_not_le hsize

theorem allocated_serve {c : Call} {s : Shape} (hfew : h.objectCount < 2 ^ 64)
    (hcreated : (h.serve c).1 = .ok (.created id)) (hshape : c.request.shape? = some s) :
    Allocated { h with refuses := c.refuses } (h.serve c).2 id s c.request.fill := by
  unfold serve at hcreated ⊢
  rcases answer_allocate (h := { h with refuses := c.refuses }) hshape with ⟨fault, hanswer⟩ | hanswer
  · rw [perform_of_refused hanswer] at hcreated
    cases hcreated
  · rw [perform_of_ok hanswer] at hcreated ⊢
    cases hcreated
    exact allocated_add (h := { h with refuses := c.refuses }) hfew s c.request.fill

/-- A grid that has just been allocated. -/
theorem hasGrid_serve {c : Call} {fill : Value} (hfew : h.objectCount < 2 ^ 64)
    (hcreated : (h.serve c).1 = .ok (.created id)) (hrequest : c.request = .newGrid rows columns fill) :
    (h.serve c).2.HasGrid id rows columns ∧ ∀ row column, InGrid rows columns row column →
      (h.serve c).2.held? (.cell id (offset columns row column)) = some fill := by
  have hallocated := allocated_serve hfew hcreated (by rw [hrequest]; rfl)
  have hbounds : 0 ≤ rows.toInt ∧ 0 ≤ columns.toInt ∧ rows.toInt * columns.toInt < 2 ^ 63 := by
    unfold serve at hcreated
    cases hanswer : answer { h with refuses := c.refuses } c.request with
    | error fault =>
      rw [perform_of_refused hanswer] at hcreated
      cases hcreated
    | ok reply =>
      rw [hrequest] at hanswer
      obtain ⟨change, hnew, -⟩ := Except.map_eq_ok_iff.mp hanswer
      exact newGrid_bounds hnew
  have hgrid : (h.serve c).2.HasGrid id rows columns := ⟨hbounds.1, hbounds.2.1, hbounds.2.2, hallocated.shape⟩
  refine ⟨hgrid, fun row column hin => ?_⟩
  have hplace := (hgrid.place?_cell row column).trans (if_pos hin)
  obtain ⟨p, hp, hheld⟩ := read_eq_value_iff.mp (hallocated.cells _ _ hplace)
  cases hplace.symm.trans hp
  rw [hheld, hrequest]
  rfl

end

/-! ### Matrices -/

/-- The array with a number is a matrix of rows and columns with given entries. It is read and written by row and column just
where it has them; each row and column has a cell of its own, and all cells are taken; and the same cells are read and
written by index. -/
structure Matrix (h : Heap) (id rows columns : Int64) (entry : Int64 → Int64 → Value) : Prop where
  get : ∀ row column, InGrid rows columns row column → h.getCell id row column = .ok (entry row column)
  set : ∀ row column v, InGrid rows columns row column →
    h.setCell id row column v = .ok (.setCell id (offset columns row column) v)
  outside : ∀ row column, ¬InGrid rows columns row column →
    (∃ fault, h.getCell id row column = .error fault ∧ fault.kind = .outOfBounds) ∧
      ∀ v, ∃ fault, h.setCell id row column v = .error fault ∧ fault.kind = .outOfBounds
  cells : Set.BijOn (fun p : Int64 × Int64 => offset columns p.1 p.2) {p | InGrid rows columns p.1 p.2}
    {k | k < rows.toInt.toNat * columns.toInt.toNat}
  length : h.arrayLength id = .ok (rows.toInt.toNat * columns.toInt.toNat)
  indices : ∀ i v, Within (rows.toInt.toNat * columns.toInt.toNat) i →
    h.setIndex id i v = .ok (.setCell id i.toInt.toNat v)
  index : ∀ row column, InGrid rows columns row column →
    (row * columns + column).toInt = row.toInt * columns.toInt + column.toInt ∧
      h.getIndex id (row * columns + column) = h.getCell id row column

section
variable {h : Heap} {id rows columns : Int64}

theorem getCell_of_held {row column : Int64} {p : Place} {v : Value} (hplace : h.place? (.cell id row column) = some p)
    (hheld : h.held? p = some v) : h.getCell id row column = .ok v := by
  obtain ⟨w, hget, hw⟩ := Except.map_eq_ok_iff.mp (read_eq_value_iff.mpr ⟨p, hplace, hheld⟩)
  cases hw
  exact hget

theorem getIndex_of_held {i : Int64} {p : Place} {v : Value} (hplace : h.place? (.index id i) = some p)
    (hheld : h.held? p = some v) : h.getIndex id i = .ok v := by
  obtain ⟨w, hget, hw⟩ := Except.map_eq_ok_iff.mp (read_eq_value_iff.mpr ⟨p, hplace, hheld⟩)
  cases hw
  exact hget

/-- Where a grid or an array has no cell, it is neither read nor written by row and column. -/
theorem refused_of_unheld {row column : Int64} {fault : Fault} (hplace : h.place? (.cell id row column) = none)
    (hfault : (Read.cell id row column).unheld (h.shape? id) = .error fault) :
    h.getCell id row column = .error fault ∧ ∀ v, h.setCell id row column v = .error fault := by
  refine ⟨?_, fun v => ?_⟩
  · have hread := read_eq h (.cell id row column)
    rw [hplace] at hread
    exact (Except.map_eq_error_iff _).mp (hread.trans hfault)
  · have hanswer := answer_setCell h id row column v
    rw [hplace, hfault] at hanswer
    exact (Except.map_eq_error_iff _).mp hanswer

theorem HasGrid.matrix (hgrid : h.HasGrid id rows columns) {entry : Int64 → Int64 → Value}
    (hentries : ∀ row column, InGrid rows columns row column →
      h.held? (.cell id (offset columns row column)) = some (entry row column)) : h.Matrix id rows columns entry where
  get row column hin := getCell_of_held ((hgrid.place?_cell row column).trans (if_pos hin)) (hentries row column hin)
  set row column v hin := by
    have hanswer := answer_setCell h id row column v
    rw [(hgrid.place?_cell row column).trans (if_pos hin)] at hanswer
    obtain ⟨change, hset, heq⟩ := Except.map_eq_ok_iff.mp hanswer
    cases heq
    exact hset
  outside row column hout := by
    -- The fault names the number of columns, which the shape of the grid knows.
    have hfault : (Read.cell id row column).unheld (h.shape? id) =
        .error (.cellOutOfBounds row column columns.toInt.toNat) := by
      rw [hgrid.shape]
      rfl
    obtain ⟨hget, hset⟩ := refused_of_unheld ((hgrid.place?_cell row column).trans (if_neg hout)) hfault
    exact ⟨⟨_, hget, rfl⟩, fun v => ⟨_, hset v, rfl⟩⟩
  cells := offset_bijOn hgrid.rows_nonneg hgrid.columns_nonneg
  length := by
    have hread := read_eq h (.length id)
    simp only [place?, Read.id, hgrid.shape] at hread
    obtain ⟨n, hlength, hn⟩ := Except.map_eq_ok_iff.mp hread
    cases hn
    exact hlength
  indices i v hwithin := by
    have hanswer := answer_setIndex h id i v
    rw [(hgrid.place?_index i).trans (if_pos hwithin)] at hanswer
    obtain ⟨change, hset, heq⟩ := Except.map_eq_ok_iff.mp hanswer
    cases heq
    exact hset
  index row column hin := by
    have hindex := hin.toInt_index hgrid.size
    refine ⟨hindex, ?_⟩
    rw [getIndex_of_held ((hgrid.place?_index_iff hin).mpr ⟨rfl, hindex⟩) (hentries row column hin)]
    exact (getCell_of_held ((hgrid.place?_cell row column).trans (if_pos hin)) (hentries row column hin)).symm

end

/-- A two-dimensional array that a heap has given out is a matrix for good, whatever the heap has been asked before and since:
an entry is what has been written there last, by row and column or by index, and the fill if nothing has. An array that was
allocated without rows and columns has none. -/
theorem grids_are_matrices (before behind : List Call) (c : Call) (id : Int64)
    (hcreated : ((after {} before).serve c).1 = .ok (.created id))
    (hfew : (after {} (before ++ c :: behind)).objectCount < 2 ^ 64) :
    (∀ rows columns fill, c.request = .newGrid rows columns fill →
        Matrix (after {} (before ++ c :: behind)) id rows columns fun row column =>
          (behind.filterMap fun d => written? id columns row column d.request).getLastD fill) ∧
      ∀ length fill, c.request = .newArray length fill → ∀ row column,
        (∃ fault, (after {} (before ++ c :: behind)).getCell id row column = .error fault ∧ fault.kind = .operand) ∧
          ∀ v, ∃ fault, (after {} (before ++ c :: behind)).setCell id row column v = .error fault ∧
            fault.kind = .operand := by
  have hafter : after {} (before ++ c :: behind) = ((after {} before).serve c).2.after behind := after_append _ _ _
  rw [hafter] at hfew ⊢
  have hfew' : (after {} before).objectCount < 2 ^ 64 :=
    Nat.lt_of_le_of_lt (objectCount_le_after _ (c :: behind)) hfew
  refine ⟨fun rows columns fill hrequest => ?_, fun length fill hrequest row column => ?_⟩
  · obtain ⟨hgrid, hfill⟩ := hasGrid_serve hfew' hcreated hrequest
    exact (hgrid.after behind).matrix fun row column hin => hgrid.held?_after hin (hfill row column hin) behind hfew
  · have hrequested : c.request.shape? = some (.array length.toInt.toNat none) := by
      rw [hrequest]
      rfl
    have hshape := shape?_after (allocated_serve hfew' hcreated hrequested).shape behind
    have hplace : (((after {} before).serve c).2.after behind).place? (.cell id row column) = none := by
      simp only [place?, hshape]
    obtain ⟨hget, hset⟩ := refused_of_unheld hplace (by rw [hshape]; rfl)
    exact ⟨⟨_, hget, rfl⟩, fun v => ⟨_, hset v, rfl⟩⟩

/-- Calls on a grid of two rows and three columns: its cells are set in both ways, in vain beyond the end of a row, and
another array is allocated in between. -/
def gridCalls : List Call := [
  ⟨beyond 8, .setCell 2024 0 2 (.int 1)⟩, ⟨beyond 8, .setIndex 2024 3 (.int 2)⟩, ⟨beyond 8, .newArray 4 (.int 9)⟩,
  ⟨beyond 8, .setCell 2024 0 3 (.int 3)⟩, ⟨beyond 8, .setIndex 2025 2 (.int 4)⟩, ⟨beyond 8, .setIndex 2024 2 (.int 5)⟩,
  ⟨beyond 8, .setCell 2024 2 0 (.int 6)⟩]

theorem grid_is_matrix :
    ((after {} [⟨beyond 8, .newStruct⟩]).serve ⟨beyond 6, .newGrid 2 3 .null⟩).1 = .ok (.created 2024) ∧
      Matrix (after {} ([⟨beyond 8, .newStruct⟩] ++ ⟨beyond 6, .newGrid 2 3 .null⟩ :: gridCalls)) 2024 2 3 (fun row column =>
        (gridCalls.filterMap fun d => written? 2024 3 row column d.request).getLastD .null) ∧
      (gridCalls.filterMap fun d => written? 2024 3 0 2 d.request) = [.int 1, .int 5] ∧
      (gridCalls.filterMap fun d => written? 2024 3 1 0 d.request) = [.int 2] ∧
      (gridCalls.filterMap fun d => written? 2024 3 1 2 d.request) = [] := by
  have hcreated : ((after {} [⟨beyond 8, .newStruct⟩]).serve ⟨beyond 6, .newGrid 2 3 .null⟩).1 = .ok (.created 2024) := rfl
  have hfew : (after {} ([⟨beyond 8, .newStruct⟩] ++ ⟨beyond 6, .newGrid 2 3 .null⟩ :: gridCalls)).objectCount < 2 ^ 64 := by
    decide +kernel
  exact ⟨hcreated, (grids_are_matrices _ gridCalls _ 2024 hcreated hfew).1 2 3 .null rfl, rfl, rfl, rfl⟩

end Bytecode.Heap
