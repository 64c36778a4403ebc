import Bytecode.Proofs.Correctness.Detours
import Bytecode.Proofs.Lowering.Insertion
import Bytecode.Proofs.Safety.Assignment

/-! Paths and aliases. If the start of a path gets a name of its own, which the function has no other use for, the program
    runs as before: the chunk has a counterpart of the function, with one detour through the slot of the new variable. -/

namespace Bytecode.Correctness
open Lowering Scoping State

/-! ### Functions with an alias -/

theorem slotShift_lt {n j k : Nat} (h : j < k) : slotShift n j < slotShift n k := by
  unfold slotShift
  split <;> split <;> omega

theorem slotShift_ne (n k : Nat) : slotShift n k ≠ n := by
  unfold slotShift
  split <;> omega

section
variable {n place : Nat} {code code' : List Instr}

/-- The instructions of the old code, renamed, at the indices that they moved to. -/
theorem getElem?_inserted (h : Inserted n place 0 code code') (pc : Nat) :
    code'[targetShift place pc]? = code[pc]?.map (makeRoom n place) := by
  obtain ⟨a, b, rfl, rfl, -, -, rfl⟩ := h
  rw [Nat.zero_add]
  by_cases hpc : pc < a.length
  · rw [targetShift_fixes _ pc hpc, List.getElem?_append_left (by simpa using hpc), List.getElem?_append_left hpc,
      List.getElem?_map]
  · obtain ⟨k, rfl⟩ := Nat.exists_eq_add_of_le (Nat.le_of_not_lt hpc)
    rw [targetShift_of_le (Nat.le_add_right _ _), List.getElem?_append_right (by simp; omega),
      List.getElem?_append_right (Nat.le_add_right _ _), List.length_map, Nat.add_assoc, Nat.add_sub_cancel_left,
      Nat.add_sub_cancel_left, List.getElem?_cons_succ, List.getElem?_cons_succ, List.getElem?_map]

theorem onward_inserted (h : Inserted n place 0 code code') {pc : Nat} {i : Instr} (hi : code[pc]? = some i) :
    Onward (slotShift n) (targetShift place) code'.toArray pc i := by
  by_cases hpc : pc + 1 = place
  · obtain ⟨_, b, rfl, rfl, ⟨init, last, rfl, hlast⟩, -, rfl⟩ := h
    obtain rfl : pc = init.length := by simpa using hpc
    obtain rfl : last = i := by simpa using hi
    have hfixed := targetShift_fixes (0 + (init ++ [last]).length) init.length (by simp)
    refine .detour (n := n) hlast (slotShift_ne n) ?_ ?_ ?_
    · rw [hfixed]
      simp
    · rw [hfixed]
      simp
    · rw [hfixed, targetShift_of_le (by simp)]
  · refine .direct ?_
    unfold targetShift
    split <;> split <;> omega

/-- The function with the inserted store and load is a counterpart. -/
theorem counterparts_inserted {g : Function} (h : Inserted n place 0 g.code.toList code') :
    Counterparts g { g with code := code'.toArray } := by
  refine ⟨slotShift n, targetShift place, rfl, rfl, fun _ _ => slotShift_lt, targetShift_fixes place 0 h.start_lt,
    fun pc => ?_, fun pc i hi => onward_inserted h ?_⟩
  · rw [List.getElem?_toArray, getElem?_inserted h pc, Array.getElem?_toList]
  · rwa [Array.getElem?_toList]

end

theorem counterparts_refl (g : Function) : Counterparts g g :=
  ⟨id, id, rfl, rfl, fun _ _ h => h, rfl, fun pc => by rw [rename_id, Option.map_id]; rfl, fun _ _ _ => .direct rfl⟩

/-! ### Programs with an alias -/

section
variable {layouts : Layouts} {c c' d : Chunk}

theorem Mirrored.add {g g' : Function} (hc : Mirrored c c') (hg : Counterparts g g') : Mirrored (c.add g) (c'.add g') := by
  intro name
  obtain ⟨slot, target, hcounterpart⟩ := hg
  rw [Chunk.get?_add, Chunk.get?_add, hcounterpart.name]
  split
  · exact .some ⟨slot, target, hcounterpart⟩
  · exact hc name

/-- The second function has the same name and is lowered to a counterpart. -/
def LowersAlike (layouts : Layouts) (f f' : Tree.Function) : Prop :=
  f'.name = f.name ∧
    ∀ g, lowerFunction layouts f = .ok g → ∃ g', lowerFunction layouts f' = .ok g' ∧ Counterparts g g'

theorem lowersAlike_refl (layouts : Layouts) (f : Tree.Function) : LowersAlike layouts f f :=
  ⟨rfl, fun g hg => ⟨g, hg, counterparts_refl g⟩⟩

theorem lowerFunctions_mirrored {fs fs' : List Tree.Function} (hfs : List.Forall₂ (LowersAlike layouts) fs fs')
    (hc : Mirrored c c') (h : lowerFunctions layouts c fs = .ok d) :
    ∃ d', lowerFunctions layouts c' fs' = .ok d' ∧ Mirrored d d' := by
  induction hfs generalizing c c' with
  | nil =>
    cases h
    exact ⟨c', rfl, hc⟩
  | @cons f f' rest rest' hf _ ih =>
    obtain ⟨hnone, g, hg, hrest⟩ := lowerFunctions_cons h
    obtain ⟨hname, hlower⟩ := hf
    obtain ⟨g', hg', hcounterparts⟩ := hlower g hg
    obtain ⟨d', hd', hd⟩ := ih (hc.add hcounterparts) hrest
    have hnone' : c'.get? f'.name = none := by
      have hrel := hc f.name
      rw [hnone] at hrel
      rw [hname]
      generalize c'.get? f.name = found at hrel ⊢
      cases hrel
      rfl
    refine ⟨d', ?_, hd⟩
    simp only [lowerFunctions, hnone', hg']
    exact hd'

end

/-- A path can be taken in two steps. A statement assigns to a path, reads one into a new variable or prints one. The path is
split between two segments or in front of its last subscript, and the statement is replaced by a declaration of a variable
with an unused name, whose value is the first part, and the same statement on what is left of the path behind this variable.
Then the program can still be lowered, and on any machine it comes out as before: the one runs forever exactly if the other
does, and otherwise they end in the same way, with the same fault in the same function, the same heap and the same
streams. -/
theorem aliased_path_runs_alike {g : Generator} {p : Tree.Program} {c : Chunk} {before behind : List Tree.Function}
    {f : Tree.Function} {body : List Tree.Stmt} {t : String} {type : Tree.TypeName} (hlower : (g.lower p).1 = .ok c)
    (hf : p.functions = before ++ f :: behind) (hfresh : t ∉ names (stmtsMentions f.body))
    (halias : Rewrites (Alias t type) f.body body) :
    ∃ c', (g.lower { p with functions := before ++ { f with body := body } :: behind }).1 = .ok c' ∧
      ∀ (m : Machine) (report : Report), (∃ bound, (m.run? c bound).map runReport = some report) ↔
        ∃ bound, (m.run? c' bound).map runReport = some report := by
  obtain ⟨label, hlabel, -⟩ := (Safety.follows_assignedSlots (g.lower p).2.layouts p).functions hlower False.elim
  have halike : LowersAlike (g.lower p).2.layouts f { f with body := body } := by
    refine ⟨rfl, fun h hh => ?_⟩
    obtain ⟨n, place, code, hcode, hinserted⟩ := lowerFunction_rewrites hh halias fun x hx heq => hfresh (heq ▸ hx)
    exact ⟨_, hcode, counterparts_inserted hinserted⟩
  have hfunctions : lowerFunctions (g.lower p).2.layouts {} (before ++ f :: behind) = .ok c := hf ▸ hlower
  have hall : List.Forall₂ (LowersAlike (g.lower p).2.layouts) (before ++ f :: behind)
      (before ++ { f with body := body } :: behind) :=
    List.rel_append (List.forall₂_same.mpr fun f _ => lowersAlike_refl _ f)
      (.cons halike (List.forall₂_same.mpr fun f _ => lowersAlike_refl _ f))
  have hempty : Mirrored {} {} := fun _ => .none
  obtain ⟨c', hc', hmirrored⟩ := lowerFunctions_mirrored hall hempty hfunctions
  refine ⟨c', hc', fun m report => reports_mirrored hmirrored (fun main hmain => ?_) report⟩
  exact fun s h callers k hreach hload =>
    (Safety.stored_of_load hlabel (Machine.visits_of_reaches hmain hreach) hload).1

/-- A program that sets cells of a grid inside a struct in a loop, and then writes one of them. -/
def board (round : List Tree.Stmt) : Tree.Program where
  structs := [⟨"Board", [⟨"cells", .arrayOf "int"⟩]⟩]
  functions := [
    { name := "main", result := .void, body := [
        .declare ⟨⟨"b", { name := "Board" }⟩, .newStruct "Board"⟩,
        .assign ⟨[.plain "b", .plain "cells"], .newArray "int" (.two (.literal (.int 2)) (.literal (.int 2)))⟩,
        .count ⟨⟨"i", { name := "int" }⟩, .literal (.int 0)⟩ (.binary .lt (.var "i") (.literal (.int 2)))
          ⟨[.plain "i"], .binary .add (.var "i") (.literal (.int 1))⟩ round,
        .print (.path [.plain "b", .indexed "cells" (.two (.literal (.int 1)) (.literal (.int 1)))])] }]

/-- The chunk of the program if each round sets the cell of one row. -/
def boardChunk : Chunk where
  functions := [
    ⟨"main", 0, #[.op .newStruct, .op .dup, .op (.addField "cells"), .op .dup, .op (.push .null), .op (.setField "cells"),
      .store 0, .load 0, .op (.push (.int 2)), .op (.push (.int 2)), .op (.push .null), .op .newGrid,
      .op (.setField "cells"), .op (.push (.int 0)), .store 1, .load 1, .op (.push (.int 2)), .op (.order .lt),
      .jumpUnless 30, .load 0, .op (.getField "cells"), .load 1, .op (.push (.int 1)), .load 1, .op .setCell,
      .load 1, .op (.push (.int 1)), .op (.arith .add), .store 1, .jump 15, .op .nop, .load 0, .op (.getField "cells"),
      .op (.push (.int 1)), .op (.push (.int 1)), .op .getCell, .write, .op (.push .null), .ret]⟩]

theorem boardChunk_writes :
    ((Machine.run? {} boardChunk 60).map runReport).map (fun report => (report.result.toBool, report.world.output.written)) =
      some (true, "1".toUTF8.data) := by
  decide +kernel

/-- The cell that a round sets. -/
def boardCell : Tree.Subscript :=
  .two (.var "i") (.literal (.int 1))

/-- The grid gets a name inside of the loop. -/
theorem board_runs_alike :
    (Generator.lower {} (board [.assign ⟨[.plain "b", .indexed "cells" boardCell], .var "i"⟩])).1 = .ok boardChunk ∧
      ∃ c', (Generator.lower {} (board [.declare ⟨⟨"grid", .arrayOf "int"⟩, .path [.plain "b", .plain "cells"]⟩,
          .assign ⟨[.indexed "grid" boardCell], .var "i"⟩])).1 = .ok c' ∧
        ∃ report, (∃ bound, (Machine.run? {} c' bound).map runReport = some report) ∧
          (report.result.toBool, report.world.output.written) = (true, "1".toUTF8.data) := by
  have hlower : (Generator.lower {} (board [.assign ⟨[.plain "b", .indexed "cells" boardCell], .var "i"⟩])).1 =
      .ok boardChunk := rfl
  have halias : Alias "grid" (.arrayOf "int") (.assign ⟨[.plain "b", .indexed "cells" boardCell], .var "i"⟩)
      [.declare ⟨⟨"grid", .arrayOf "int"⟩, .path [.plain "b", .plain "cells"]⟩,
        .assign ⟨[.indexed "grid" boardCell], .var "i"⟩] :=
    .assign (.var "i") (.subscript [.plain "b"] "cells" boardCell)
  have hmain : (board [.assign ⟨[.plain "b", .indexed "cells" boardCell], .var "i"⟩]).functions = [] ++ _ :: [] := rfl
  obtain ⟨c', hc', halike⟩ := aliased_path_runs_alike hlower hmain (by decide)
    (.within [_, _] (.count _ _ _) (.here [] halias []) [_])
  obtain ⟨report, hrun, hreport⟩ := Option.map_eq_some_iff.mp boardChunk_writes
  exact ⟨hlower, c', hc', report, (halike {} report).mp ⟨60, hrun⟩, hreport⟩

end Bytecode.Correctness
