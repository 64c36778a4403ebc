import Bytecode.Proofs.Heap.Refinement

/-! What holds of the tables whatever they have been asked: they fit together, the numbers are given out one after the other,
    and each object keeps the shape that it was allocated with. The objects of a heap are numbered without gaps by their places,
    and have one kind each; the tables have this from the heap that they represent. -/

namespace Bytecode

namespace Heap
variable {h : Heap} {id : Int64}

theorem toNat_toUInt64 (n : Int64) : (n.toUInt64.toNat : Int) = n.toInt % (2 ^ 64 : Nat) := by
  have htoNat : n.toUInt64.toNat = n.toBitVec.toNat := rfl
  have hlt := n.toBitVec.isLt
  rw [htoNat, ← Int64.toInt_toBitVec, BitVec.toInt_eq_toNat_bmod, Int.bmod_emod]
  omega

theorem indexOf_eq (id : Int64) : (indexOf id : Int) = (id.toInt - firstId) % (2 ^ 64 : Nat) := by
  have hfirst : (Int64.ofNat firstId).toInt = firstId := by decide
  rw [indexOf, toNat_toUInt64, Int64.toInt_sub, hfirst]
  exact Int.bmod_emod

section
variable (hfew : h.objectCount < 2 ^ 63 - firstId)
include hfew

theorem toInt_nextId : h.nextId.toInt = firstId + h.objectCount := by
  have hlt : firstId + h.objectCount < 2 ^ 63 := by omega
  exact Int64.toInt_ofNat_of_lt hlt

/-- The numbers of the objects go from the first one to the next one. -/
theorem find?_isSome_iff : (h.find? id).isSome = true ↔ firstId ≤ id.toInt ∧ id.toInt < h.nextId.toInt := by
  have hindex := indexOf_eq id
  have hlow := id.le_toInt
  have hhigh := id.toInt_lt
  rw [← Option.isSome_map (f := Object.shape), ← shape?, shape?_isSome_iff, toInt_nextId hfew]
  unfold firstId at *
  omega

end
end Heap

namespace Store
open Heap (Request Reply Call created? firstId)

/-- The shape of the object with a number, by what the tables hold of it. -/
def shape? (t : Store) (id : Int64) : Option Shape :=
  if id ∈ t.structs then some .struct else t.arrays[id]?.map fun cells => .array cells.size t.strides[id]?

/-- The tables fit together: no number is that of a struct and of an array, the numbers go from the first one to the next one,
there are as many as objects, and every number with a stride is that of an array. -/
structure Consistent (t : Store) : Prop where
  disjoint : ∀ id ∈ t.structs, id ∉ t.arrays
  numbers : ∀ id, id ∈ t.structs ∨ id ∈ t.arrays ↔ firstId ≤ id.toInt ∧ id.toInt < t.next.toInt
  next : t.next.toInt = firstId + t.objectCount
  strided : ∀ id ∈ t.strides, id ∈ t.arrays

/-- What a call means for the tables at a later time. -/
structure Lasts (t : Store) (c : Call) (later : Store) : Prop where
  counted : (t.serve c).2.objectCount = t.objectCount + if (created? (t.serve c).1).isSome then 1 else 0
  refused : ∀ fault, (t.serve c).1 = .error fault → (t.serve c).2 = t
  kept : ∀ id s, t.shape? id = some s → later.shape? id = some s
  created : ∀ id, (t.serve c).1 = .ok (.created id) →
    id = t.next ∧ t.shape? id = none ∧ ∃ s, c.request.shape? = some s ∧ later.shape? id = some s

namespace Represents
variable {t : Store} {h : Heap} (hrep : t.Represents h)
include hrep

theorem mem_structs_iff {id : Int64} : id ∈ t.structs ↔ ∃ fields, h.find? id = some (.struct fields) := by
  rw [Std.HashMap.mem_iff_isSome_getElem?, hrep.structs]
  rcases h.find? id with _ | fields | ⟨cells, columns⟩ <;> simp [Object.fields?]

theorem mem_arrays_iff {id : Int64} : id ∈ t.arrays ↔ ∃ cells columns, h.find? id = some (.array cells columns) := by
  rw [Std.HashMap.mem_iff_isSome_getElem?, hrep.arrays]
  rcases h.find? id with _ | fields | ⟨cells, columns⟩ <;> simp [Object.cells?]

theorem shape?_eq (id : Int64) : t.shape? id = h.shape? id := by
  rcases hfind : h.find? id with _ | fields | ⟨cells, columns⟩ <;>
    simp [Store.shape?, Heap.shape?, hrep.mem_structs_iff, hrep.arrays, hrep.strides, hfind, Object.cells?,
      Object.columns?, Object.shape]

theorem consistent (hfew : h.objectCount < 2 ^ 63 - firstId) : t.Consistent where
  disjoint id hstruct harray := by
    obtain ⟨fields, hfind⟩ := hrep.mem_structs_iff.mp hstruct
    obtain ⟨cells, columns, hfind'⟩ := hrep.mem_arrays_iff.mp harray
    cases hfind.symm.trans hfind'
  numbers id := by
    rw [hrep.next, ← Heap.find?_isSome_iff hfew, hrep.mem_structs_iff, hrep.mem_arrays_iff]
    rcases h.find? id with _ | fields | ⟨cells, columns⟩ <;> simp
  next := by rw [hrep.next, Heap.toInt_nextId hfew, hrep.count]
  strided id hstride := by
    rw [Std.HashMap.mem_iff_isSome_getElem?, hrep.strides] at hstride
    rw [hrep.mem_arrays_iff]
    rcases hfind : h.find? id with _ | fields | ⟨cells, columns⟩
    · rw [hfind] at hstride
      cases hstride
    · rw [hfind] at hstride
      cases hstride
    · exact ⟨cells, columns, rfl⟩

/-- A call lasts: later calls take nothing of it back. -/
theorem lasts (c : Call) (behind : List Call) {later : Store} (hlater : later.Represents (h.after (c :: behind)))
    (hfew : h.objectCount < 2 ^ 64) : t.Lasts c later := by
  obtain ⟨hreply, hserved, hrefused⟩ := hrep.serve hfew c
  refine ⟨?_, hrefused, fun id s hs => ?_, fun id hid => ?_⟩
  · rw [hserved.count, hrep.count, hreply, Heap.objectCount_serve]
  · rw [hrep.shape?_eq] at hs
    rw [hlater.shape?_eq]
    exact Heap.shape?_after hs _
  · rw [hreply] at hid
    rcases Heap.serve_cases h c with ⟨s, hs, hcreated, hshapes⟩ | ⟨hnone, -⟩
    · obtain rfl : h.nextId = id := by
        rw [hcreated] at hid
        cases hid
        rfl
      refine ⟨hrep.next.symm, ?_, s, hs, ?_⟩
      · rw [hrep.shape?_eq, Heap.shape?, Heap.find?_nextId hfew]
        rfl
      · rw [hlater.shape?_eq]
        refine Heap.shape?_after (h := (h.serve c).2) ?_ behind
        rw [Heap.shape?_eq, hshapes, Heap.indexOf_nextId hfew, ← Heap.length_shapes]
        simp
    · rw [hid] at hnone
      cases hnone

end Represents

theorem replies_append (t : Store) (u v : List Call) : t.replies (u ++ v) = t.replies u ++ (t.after u).replies v := by
  induction u generalizing t with
  | nil => rfl
  | cons c rest ih => exact congrArg _ (ih _)

theorem length_created_le (t : Store) (calls : List Call) :
    ((t.replies calls).filterMap created?).length ≤ calls.length := by
  refine Nat.le_trans (List.length_filterMap_le _ _) (Nat.le_of_eq ?_)
  induction calls generalizing t with
  | nil => rfl
  | cons c rest ih => exact congrArg _ (ih _)

/-- New tables represent what a new heap becomes, and the numbers they have given out are counted by its objects. -/
theorem after_new (calls : List Call) (hfew : ((replies {} calls).filterMap created?).length < 2 ^ 64) :
    replies {} calls = Heap.replies {} calls ∧ (after {} calls).Represents (Heap.after {} calls) ∧
      (Heap.after {} calls).objectCount = ((replies {} calls).filterMap created?).length ∧
      (replies {} calls).filterMap created? =
        (List.range (after {} calls).objectCount).map fun n => Int64.ofNat (firstId + n) := by
  have hnew : Heap.objectCount {} = 0 := rfl
  obtain ⟨hreplies, hrep⟩ := represents_new.after calls (by omega)
  obtain ⟨count, hcount, hcreated⟩ := Heap.created_replies {} calls
  rw [hnew, Nat.zero_add] at hcount
  rw [hnew] at hcreated
  refine ⟨hreplies, hrep, ?_, ?_⟩
  · rw [hreplies, hcreated, hcount, List.length_map, List.length_range']
  · rw [hreplies, hcreated, hrep.count, hcount, List.range_eq_range']

/-- Whatever new tables have been asked, and whatever there was no memory for, they fit together. The numbers that were given
out are those from the first on without gaps, each call that allocates counts one object more and any other none, a call
that is refused changes nothing, and an object keeps the shape that its allocation asked for. All along, the replies are those
of a heap of objects in the order of their allocation, which the tables represent. -/
theorem heap_stays_consistent (calls : List Call)
    (hfew : ((replies {} calls).filterMap created?).length < 2 ^ 63 - firstId) :
    (after {} calls).Consistent ∧
      ((replies {} calls).filterMap created? =
        (List.range (after {} calls).objectCount).map fun n => Int64.ofNat (firstId + n)) ∧
      (∀ before c behind, calls = before ++ c :: behind → (after {} before).Lasts c (after {} calls)) ∧
      replies {} calls = Heap.replies {} calls ∧ (after {} calls).Represents (Heap.after {} calls) := by
  obtain ⟨hreplies, hrep, hcount, hcreated⟩ := after_new calls (by omega)
  refine ⟨hrep.consistent (by omega), hcreated, fun before c behind hcalls => ?_, hreplies, hrep⟩
  have hbefore : ((replies {} before).filterMap created?).length ≤ ((replies {} calls).filterMap created?).length := by
    rw [hcalls, replies_append, List.filterMap_append, List.length_append]
    exact Nat.le_add_right _ _
  obtain ⟨-, hrep', hcount', -⟩ := after_new before (by omega)
  refine hrep'.lasts c behind ?_ (by omega)
  rw [← Heap.after_append, ← hcalls]
  exact hrep

/-- Three objects are allocated. The calls that are refused between them take no number. -/
theorem mixedCalls_stay_consistent :
    (replies {} Heap.mixedCalls).filterMap created? = [2023, 2024, 2025] ∧ (after {} Heap.mixedCalls).Consistent ∧
      (after {} Heap.mixedCalls).objectCount = 3 ∧
      (after {} (Heap.mixedCalls.take 6)).Lasts ⟨beyond 6, .newGrid 2 3 .null⟩ (after {} Heap.mixedCalls) ∧
      (after {} Heap.mixedCalls).shape? 2025 = some (.array 6 (some 3)) := by
  have hcreated : (replies {} Heap.mixedCalls).filterMap created? = [2023, 2024, 2025] := by
    have hfew := length_created_le {} Heap.mixedCalls
    have hcalls : Heap.mixedCalls.length = 10 := rfl
    rw [(after_new Heap.mixedCalls (by omega)).1]
    decide +kernel
  obtain ⟨hconsistent, -, hlasts, -, hrep⟩ := heap_stays_consistent Heap.mixedCalls (by rw [hcreated]; decide)
  refine ⟨hcreated, hconsistent, ?_, hlasts _ _ (Heap.mixedCalls.drop 7) rfl, ?_⟩
  · rw [hrep.count]
    decide +kernel
  · rw [hrep.shape?_eq]
    decide +kernel

end Store
end Bytecode
