import Bytecode.Listing
import Bytecode.Proofs.Lowering.Chunks
import Bytecode.Proofs.Machine.Course
import Bytecode.Proofs.Machine.Effect

/-! The sites of failures. A run that fails at an instruction names the function of the innermost frame, the index of the
    instruction and its text, which is the entry with that number in the section of the function in the listing. A failure
    has no site only where no instruction has failed. -/

namespace Bytecode

/-! ### Entries of a listing -/

namespace Listing

theorem intercalate_append_cons (separator : String) (before : List String) (s : String) (after : List String) :
    separator.intercalate (before ++ s :: after) =
      String.join (before.map (· ++ separator)) ++ s ++ String.join (after.map (separator ++ ·)) := by
  induction before with
  | nil =>
    induction after generalizing s with
    | nil => simp
    | cons t rest ih => simpa [String.append_assoc] using ih t
  | cons t rest ih =>
    have hcons : separator.intercalate (t :: (rest ++ s :: after)) =
        t ++ separator ++ separator.intercalate (rest ++ s :: after) := by
      cases rest <;> exact String.intercalate_cons_cons
    simp [hcons, ih, String.append_assoc]

/-- A line is the entry with a number in the section of a function of a chunk: in the listing it stands behind the sections
of the functions before this one, the heading and so many entries of its section. -/
def IsEntry (c : Chunk) (f : Function) (pc : Nat) (line : String) : Prop :=
  ∃ before after earlier later, c.functions = before ++ f :: after ∧ entries f = earlier ++ line :: later ∧
    earlier.length = pc ∧
    text c = String.join (before.map (ofFunction · ++ "\n")) ++
      (("Frame '" ++ f.name ++ "'\n") ++ String.join (earlier.map (· ++ "\n")) ++ (line ++ "\n") ++
        String.join (later.map (· ++ "\n"))) ++
      String.join (after.map ("\n" ++ ofFunction ·))

theorem isEntry_of_mem {c : Chunk} {f : Function} {pc : Nat} {i : Instr} (hf : f ∈ c.functions)
    (hi : f.code[pc]? = some i) : IsEntry c f pc (entry pc i) := by
  obtain ⟨before, after, hfunctions⟩ := List.append_of_mem hf
  have hline : (entries f)[pc]? = some (entry pc i) := by
    simp [entries, hi]
  obtain ⟨earlier, later, hentries, hlength⟩ : ∃ earlier later,
      entries f = earlier ++ entry pc i :: later ∧ earlier.length = pc := by
    obtain ⟨hlt, hget⟩ := List.getElem?_eq_some_iff.mp hline
    refine ⟨(entries f).take pc, (entries f).drop (pc + 1), ?_, List.length_take_of_le hlt.le⟩
    rw [← hget, List.getElem_cons_drop, List.take_append_drop]
  have hown : ofFunction f = ("Frame '" ++ f.name ++ "'\n") ++ String.join (earlier.map (· ++ "\n")) ++
      (entry pc i ++ "\n") ++ String.join (later.map (· ++ "\n")) := by
    simp [ofFunction, hentries, String.append_assoc]
  refine ⟨before, after, earlier, later, hfunctions, hentries, hlength, ?_⟩
  rw [text, hfunctions, List.map_append, List.map_cons, intercalate_append_cons, hown, List.map_map, List.map_map]
  rfl

end Listing

namespace Machine
variable {m m' : Machine} {c : Chunk} {bound : Nat} {failure : Failure}

theorem entryPoint?_eq_none_iff : entryPoint? c = none ↔ ∀ g, c.get? "main" = some g → g.arity ≠ 0 := by
  unfold entryPoint?
  simp

theorem visits_of_course? {r : Course} (h : m.course? c bound = some r) (hr : r.result = .error failure) :
    ∃ s f callers i, m.Visits c s ∧ s.next? = some (f, callers, i) ∧
      s.step c f callers i = .faulted failure.fault r.state ∧ failure.site = some (f.site i) ∧
      r.executed.getLast? = some (f, callers, i) := by
  obtain ⟨done, s, f, callers, i, hdone, hnext, hstep, hsite, hexecuted⟩ := course?_error h hr
  refine ⟨s, f, callers, i, hdone.visits, hnext, hstep, hsite, ?_⟩
  rw [hexecuted, List.getLast?_concat]

end Machine

namespace Safety
open Machine

/-- The site of a failure is that of the last instruction that was executed, in the innermost frame. It names a function of
the chunk, an index of its code and the text of the instruction there, which the listing shows as the entry with this
number in the section of the function. Without a site, there was no entry point and nothing happened, or every instruction
succeeded and the output could not be flushed. -/
theorem failure_sites_are_exact {m m' : Machine} {c : Chunk} {bound : Nat} {failure : Failure} (hc : c.Built)
    (h : m.run? c bound = some (.error failure, m')) :
    (∀ site, failure.site = some site → ∃ r s f callers i,
      m.course? c bound = some r ∧ m' = m.resume r.state (r.ending m.settings m.diagnostics).diagnostics ∧
      r.executed.getLast? = some (f, callers, i) ∧
      m.Visits c s ∧ s.frames = f :: callers ∧ s.step c f callers i = .faulted failure.fault r.state ∧
      c.get? site.function = some f.function ∧ f.pc = site.pc ∧ f.function.code[site.pc]? = some i ∧
      site.instruction = i.text ∧
      Listing.IsEntry c f.function site.pc ("  " ++ toString site.pc ++ ": " ++ site.instruction)) ∧
    (failure.site = none ↔
      (∀ g, c.get? "main" = some g → g.arity ≠ 0) ∧ m' = m ∨
        ∃ r reason, m.course? c bound = some r ∧ r.result = .ok () ∧ r.state.output.flush = .error reason) := by
  have hcourse := run?_error_course h
  refine ⟨fun site hsite => ?_, ⟨fun hsite => ?_, ?_⟩⟩
  · rcases hcourse with ⟨-, rfl, -⟩ | ⟨r, hr, hm', hresult | ⟨-, reason, -, rfl⟩⟩
    · cases hsite
    · obtain ⟨s, f, callers, i, hvisits, hnext, hstep, hfailed, hlast⟩ := visits_of_course? hr hresult
      obtain ⟨hframes, hi⟩ := State.next?_eq_some_iff.mp hnext
      obtain rfl : f.site i = site := Option.some.inj (hfailed.symm.trans hsite)
      -- Every function that runs is one of the chunk, and its name is taken only once.
      have hmem : f.function ∈ c.functions := State.top_mem hvisits hframes
      exact ⟨r, s, f, callers, i, hr, hm', hlast, hvisits, hframes, hstep, hc.sorted.get? hmem, rfl, hi, rfl,
        Listing.isEntry_of_mem hmem hi⟩
    · cases hsite
  · rcases hcourse with ⟨hmain, -, hm'⟩ | ⟨r, hr, -, hresult | ⟨hok, reason, hflush, -⟩⟩
    · exact Or.inl ⟨entryPoint?_eq_none_iff.mp hmain, hm'⟩
    · obtain ⟨s, f, callers, i, -, -, -, hfailed, -⟩ := visits_of_course? hr hresult
      rw [hsite] at hfailed
      cases hfailed
    · exact Or.inr ⟨r, reason, hr, hok, hflush⟩
  · rintro (⟨hmain, -⟩ | ⟨r, reason, hr, hok, -⟩)
    · rcases hcourse with ⟨-, rfl, -⟩ | ⟨r, hr, -⟩
      · rfl
      · simp [course?, entryPoint?_eq_none_iff.mpr hmain] at hr
    · rcases hcourse with ⟨-, rfl, -⟩ | ⟨r', hr', -, hresult | ⟨-, _, -, rfl⟩⟩
      · rfl
      · obtain rfl : r = r' := Option.some.inj (hr.symm.trans hr')
        rw [hok] at hresult
        cases hresult
      · rfl

/-- A function that divides its arguments. -/
def ratio : Function :=
  ⟨"ratio", 2, #[.store 0, .store 1, .load 0, .load 1, .op (.arith .div), .ret]⟩

/-- A chunk that divides twice, by zero the second time. -/
def dividing : Chunk :=
  let main : Function := ⟨"main", 0, #[.op (.push (.int 6)), .op (.push (.int 3)), .call "ratio", .write,
    .op (.push (.int 1)), .op (.push (.int 0)), .call "ratio", .write, .op (.push .null), .ret]⟩
  [ratio, main].foldl Chunk.add {}

theorem dividing_fails_at_listed_entry :
    dividing.Built ∧ (∃ m', Machine.run? {} dividing 60 = some (.error ⟨.divisionByZero, some ⟨"ratio", 4, "DIV()"⟩⟩, m')) ∧
      Listing.IsEntry dividing ratio 4 "  4: DIV()" := by
  have hbuilt : dividing.Built := ⟨_, rfl⟩
  obtain ⟨m', hrun⟩ : ∃ m', Machine.run? {} dividing 60 =
      some (.error ⟨.divisionByZero, some ⟨"ratio", 4, "DIV()"⟩⟩, m') := ⟨_, rfl⟩
  obtain ⟨r, s, f, callers, i, -, -, -, -, -, -, hget, -, -, -, hentry⟩ := (failure_sites_are_exact hbuilt hrun).1 _ rfl
  have hfunction : ratio = f.function := Option.some.inj hget
  exact ⟨hbuilt, ⟨m', hrun⟩, hfunction ▸ hentry⟩

end Safety
end Bytecode
