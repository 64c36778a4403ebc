import Bytecode.Proofs.Tree.Nearest
import Bytecode.Proofs.Tree.RoundTrip

/-! The texts of programs. A library reads a text as a program if and only if the text spells the program
    (`program_read_iff_spelled`), and what it writes for a program is read back as the same program if at most 127 arrays
    and objects are open inside each other, and not read at all otherwise (`program_reads_back`). -/

namespace Bytecode.Tree
open Json

/-! ### Reading -/

/-- A text is read as a program if and only if it is strict JSON text of a value that spells the program with at most 127
arrays and objects open inside each other. -/
theorem program_read_iff_spelled (L : Library) (hL : L.Reads) (t : String) (p : Program) :
    L.parse? t = some p ↔ ∃ j : Json, j.Spelled t.toList ∧ p.spelling L.number 127 j := by
  unfold Library.parse?
  rw [hL.text]
  refine exists_congr fun j => and_congr_right fun _ => ?_
  exact hL.agrees 127 (.node .program) p j

/-- The sum of a variable and a negative zero. The name of the variable is a character that takes a surrogate pair. -/
def loose : Program :=
  { functions := [⟨"main", ⟨"int", false⟩, [],
      [.ret (.binary .add (.path [.plain "😀"]) (.literal (.double (Float.ofBits 0x8000000000000000))))]⟩] }

/-- A text of that program with an unknown name, fields in another order, arrays for records, an object for an operator,
escapes and a surrogate pair. -/
def looseText : String :=
  "\x7b\"x\": \"\\ud800\", \"functions\": [[\"m\\u0061in\", [\"int\"], [],\n" ++
    "[\x7b\"return\": \x7b\"binary\": \x7b\"right\": \x7b\"literal\": \x7b\"double\": -0\x7d\x7d, " ++
      "\"op\": \x7b\"add\": null\x7d, \"left\": \x7b\"path\": [[\"\\ud83d\\ude00\", null]]\x7d\x7d\x7d\x7d]]]\x7d"

/-- The value of that text. -/
def looseJson : Json :=
  .obj [(some "x", .str none), (some "functions", .arr [.arr [.str (some "main"), .arr [.str (some "int")], .arr [],
    .arr [.obj [(some "return", .obj [(some "binary", .obj [
      (some "right", .obj [(some "literal", .obj [(some "double", .num ⟨true, ['0'], [], none⟩)])]),
      (some "op", .obj [(some "add", .null)]),
      (some "left", .obj [(some "path", .arr [.arr [.str (some "😀"), .null]])])])])]]]])]

/-- A text of no program: there is no negative zero among the integers. -/
def negativeZeroText : String :=
  "\x7b\"functions\": [[\"main\", [\"int\"], [], [\x7b\"return\": \x7b\"literal\": \x7b\"int\": -0\x7d\x7d\x7d]]]\x7d"

set_option maxRecDepth 1000 in
theorem looseText_parse : Json.parse? looseText = some looseJson := by
  cbv

theorem looseJson_read : readLevels 127 127 (.node .program) looseJson = some loose := by
  rfl

theorem looseText_spells_loose :
    Library.nearest.Reads ∧ Library.nearest.parse? looseText = some loose ∧
      (∃ j : Json, j.Spelled looseText.toList ∧ loose.spelling Text.Numeral.toDouble 127 j) ∧
      ∀ p : Program, ¬ ∃ j : Json, j.Spelled negativeZeroText.toList ∧ p.spelling Text.Numeral.toDouble 127 j := by
  have hread : Library.nearest.parse? looseText = some loose :=
    (nearest_reads.text (.node .program) looseText loose).mpr ⟨looseJson, parse?_iff.mp looseText_parse, looseJson_read⟩
  have hrefused : Library.nearest.parse? negativeZeroText = none := by
    cbv
  refine ⟨nearest_reads, hread, (program_read_iff_spelled _ nearest_reads _ _).mp hread, fun p hspelled => ?_⟩
  have hp := (program_read_iff_spelled _ nearest_reads _ _).mpr hspelled
  rw [hrefused] at hp
  cases hp

/-! ### Reading back -/

/-- All of the doubles are finite. -/
def AllFinite (doubles : List Float) : Prop :=
  ∀ x ∈ doubles, Double.isFinite x = true

/-- The text of a program without infinite doubles is read back as the same program if at most 127 arrays and objects are
open inside each other in it, and otherwise it is not read at all. Of the conversions of the library it is only assumed
that the numbers which it writes for the doubles of the program are read back as these doubles. -/
theorem program_reads_back (L : Library) (hr : L.Reads) (hw : L.Writes) (p : Program) (hp : AllFinite p.doubles)
    (hback : ∀ x ∈ p.doubles, L.ReadsBack x) :
    L.parse? (L.text p) = if (L.json p).depth ≤ 127 then some p else none := by
  have hwritten : Faithful L (.node .program) p :=
    faithfulUpTo hr hw _ (.node .program) p le_rfl fun x hx => ⟨hp x hx, hback x hx⟩
  have hspelled := hw.text (.node .program) p hwritten.strict
  have htext : ∀ p', L.parse? (L.text p) = some p' ↔ L.read 127 (.node .program) (L.json p) = some p' := by
    intro p'
    refine (hr.text (.node .program) (L.text p) p').trans ⟨?_, fun hread => ⟨_, hspelled, hread⟩⟩
    -- a text spells only one value
    rintro ⟨j, hj, hread⟩
    cases (parse?_iff.mpr hj).symm.trans (parse?_iff.mpr hspelled)
    exact hread
  rw [Option.ext htext]
  exact hwritten.reads 127

/-- An assignment to an element, and negations inside each other. -/
def negations (n : Nat) : Program :=
  { structs := [⟨"node", [⟨"rows", .arrayOf "int"⟩]⟩]
    functions := [⟨"main", .void, [],
      [.assign ⟨[.plain "n", .indexed "rows" (.one (.literal (.int Int64.minValue)))], .literal (.str "\"\\\x01é")⟩,
        .ret (Nat.repeat .not n (.literal (.double (-0.1))))]⟩] }

theorem doubles_repeat_not (n : Nat) (e : Expr) : (Nat.repeat .not n e).doubles = e.doubles := by
  induction n with
  | zero => rfl
  | succ n ih => rw [Nat.repeat, Expr.doubles, ih]

theorem depth_repeat_not (n : Nat) (e : Expr) : (Nat.repeat .not n e).json.depth = e.json.depth + n := by
  induction n with
  | zero => rfl
  | succ n ih =>
    rw [Nat.repeat, Expr.json, variant, record]
    simp [Json.depth, membersDepth, ih, Nat.add_assoc]

/-- With 120 negations there are 127 arrays and objects inside each other, and with another one there are too many. -/
theorem negations_read_back :
    (AllFinite (negations 120).doubles ∧
        Library.nearest.parse? (Library.nearest.text (negations 120)) = some (negations 120)) ∧
      AllFinite (negations 121).doubles ∧ Library.nearest.parse? (Library.nearest.text (negations 121)) = none := by
  have hfinite : Double.isFinite (-0.1) = true := by decide
  have hall : ∀ n, AllFinite (negations n).doubles := by
    intro n
    have hdoubles : (negations n).doubles = [-0.1] := by
      simp [negations, Program.doubles, stmtsDoubles, Stmt.doubles, doubles_repeat_not, Expr.doubles, Literal.doubles,
        Assignment.doubles, segmentsDoubles, Segment.doubles, Subscript.doubles]
    rw [hdoubles]
    simpa [AllFinite] using hfinite
  have hback : ∀ n, ∀ x ∈ (negations n).doubles, Library.nearest.ReadsBack x := by
    intro n x hx
    exact nearest_readsBack (hall n x hx)
  have hdepth : ∀ n, (Library.nearest.json (negations n)).depth = max 11 (n + 7) := by
    intro n
    obtain ⟨k, hk, -⟩ := doubleNumeral?_reads hfinite
    show (negations n).json.depth = _
    simp [negations, Program.json, Struct.json, Variable.json, TypeName.json, Function.json, stmtsJson, Stmt.json,
      Assignment.json, segmentsJson, Segment.json, Subscript.json, Expr.json, Literal.json, depth_repeat_not, doubleJson, hk,
      intJson, textJson, variant, record, Json.depth, itemsDepth, membersDepth]
    omega
  refine ⟨⟨hall 120, ?_⟩, hall 121, ?_⟩
  · rw [program_reads_back _ nearest_reads nearest_writes _ (hall 120) (hback 120), hdepth, if_pos (by decide)]
  · rw [program_reads_back _ nearest_reads nearest_writes _ (hall 121) (hback 121), hdepth, if_neg (by decide)]

end Bytecode.Tree
