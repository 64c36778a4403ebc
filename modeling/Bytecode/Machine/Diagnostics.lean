import Bytecode.Machine.Step
import Bytecode.Settings
import Bytecode.Table

/-! Diagnostics: notes on the executed instructions and counts of them by mnemonic, kept beside a run without touching
    it. -/

namespace Bytecode

/-- A line of the diagnostics. -/
inductive Note where
  /-- A program with a number of functions is about to start. -/
  | start (functions : Nat)
  /-- An instruction is about to be executed, with the top operand before it and the number of frames. -/
  | instruction (site : Site) (top : Option Value) (depth : Nat)
  /-- How often a mnemonic has been executed. -/
  | count (mnemonic : String) (n : Nat)

/-- A text filled up with blanks on the right to a width. -/
def padRight (width : Nat) (s : String) : String :=
  s ++ String.ofList (List.replicate (width - s.length) ' ')

/-- The text of a note, without the line feed that ends it. -/
def Note.text : Note → String
  | .start functions => "[trace] " ++ toString functions ++ " functions, entry 'main'"
  | .instruction site top depth =>
    "[trace] " ++ site.function ++ ":" ++ toString site.pc ++ " " ++ site.instruction ++ " top="
      ++ (top.map Value.debugText).getD "-" ++ " depth=" ++ toString depth
  | .count mnemonic n => "[profile] " ++ padRight 8 mnemonic ++ " " ++ toString n

/-- The notes written so far and the counts by mnemonic. -/
structure Diagnostics where
  notes : Array Note := #[]
  counts : Table Nat := {}

/-- The site of an instruction that comes next in a frame. -/
def Frame.site (f : Frame) (i : Instr) : Site :=
  ⟨f.function.name, f.pc, i.text⟩

namespace Diagnostics

def note (d : Diagnostics) (n : Note) : Diagnostics :=
  { d with notes := d.notes.push n }

/-- One more execution of a mnemonic. -/
def count (d : Diagnostics) (mnemonic : String) : Diagnostics :=
  { d with counts := d.counts.put mnemonic ((d.counts.get? mnemonic).getD 0 + 1) }

/-- The counts, larger ones first, equal ones in the order of their mnemonics. -/
def ranking (d : Diagnostics) : List (String × Nat) :=
  d.counts.entries.mergeSort fun a b => decide (b.2 < a.2) || (a.2 == b.2 && decide (a.1 ≤ b.1))

/-- Takes down the instruction that comes next, as far as the settings ask for it. -/
def observe (settings : Settings) (f : Frame) (callers : List Frame) (i : Instr) (d : Diagnostics) : Diagnostics :=
  let d := if settings.trace then d.note (.instruction (f.site i) f.stack.head? (callers.length + 1)) else d
  if settings.profileOpcodes then d.count i.mnemonic else d

/-- The counts as notes, if the settings ask for them. -/
def report (settings : Settings) (d : Diagnostics) : Diagnostics :=
  if settings.profileOpcodes then
    { d with notes := d.notes ++ (d.ranking.map fun e => Note.count e.1 e.2).toArray }
  else d

/-- The text of all notes, each ended by a line feed. -/
def text (d : Diagnostics) : String :=
  String.join (d.notes.toList.map fun n => n.text ++ "\n")

end Diagnostics

end Bytecode
