import Bytecode.Chunk
import Bytecode.CommandLine
import Bytecode.Double.Layout
import Bytecode.Double.Nearest
import Bytecode.Double.Parts
import Bytecode.Double.Shortest
import Bytecode.Fault
import Bytecode.Files
import Bytecode.Heap
import Bytecode.Instr
import Bytecode.Job
import Bytecode.Json.Basic
import Bytecode.Json.Parser
import Bytecode.Json.Token
import Bytecode.Listing
import Bytecode.Lowering
import Bytecode.Lowering.Expr
import Bytecode.Lowering.Scope
import Bytecode.Lowering.Stmt
import Bytecode.Machine.Diagnostics
import Bytecode.Machine.Operands
import Bytecode.Machine.Operation
import Bytecode.Machine.Run
import Bytecode.Machine.Step
import Bytecode.Main
import Bytecode.Proofs.Correctness.Aliases
import Bytecode.Proofs.Correctness.Arguments
import Bytecode.Proofs.Correctness.Arithmetic
import Bytecode.Proofs.Correctness.Detours
import Bytecode.Proofs.Correctness.Does
import Bytecode.Proofs.Correctness.Env
import Bytecode.Proofs.Correctness.Expr
import Bytecode.Proofs.Correctness.Meets
import Bytecode.Proofs.Correctness.Program
import Bytecode.Proofs.Correctness.Stmt
import Bytecode.Proofs.Correctness.Structs
import Bytecode.Proofs.Double.Layout
import Bytecode.Proofs.Double.Rounding
import Bytecode.Proofs.Double.Shortest
import Bytecode.Proofs.Evaluation.Basic
import Bytecode.Proofs.Evaluation.Program
import Bytecode.Proofs.Heap.Consistency
import Bytecode.Proofs.Heap.Grids
import Bytecode.Proofs.Heap.History
import Bytecode.Proofs.Heap.Reads
import Bytecode.Proofs.Heap.References
import Bytecode.Proofs.Heap.Refinement
import Bytecode.Proofs.Heap.Shift
import Bytecode.Proofs.Heap.Store
import Bytecode.Proofs.Heap.Tables
import Bytecode.Proofs.Json.Grammar
import Bytecode.Proofs.Json.Parsing
import Bytecode.Proofs.Json.Strings
import Bytecode.Proofs.Json.Writing
import Bytecode.Proofs.Lowering.Aliases
import Bytecode.Proofs.Lowering.Callees
import Bytecode.Proofs.Lowering.Calls
import Bytecode.Proofs.Lowering.Cases
import Bytecode.Proofs.Lowering.Chunks
import Bytecode.Proofs.Lowering.Control
import Bytecode.Proofs.Lowering.Emission
import Bytecode.Proofs.Lowering.Forward
import Bytecode.Proofs.Lowering.Functions
import Bytecode.Proofs.Lowering.Insertion
import Bytecode.Proofs.Lowering.Instrs
import Bytecode.Proofs.Lowering.Loops
import Bytecode.Proofs.Lowering.Occurs
import Bytecode.Proofs.Lowering.Order
import Bytecode.Proofs.Lowering.Placed
import Bytecode.Proofs.Lowering.Relocation
import Bytecode.Proofs.Lowering.Renaming
import Bytecode.Proofs.Lowering.Reuse
import Bytecode.Proofs.Lowering.Scope
import Bytecode.Proofs.Machine.Course
import Bytecode.Proofs.Machine.Early
import Bytecode.Proofs.Machine.Effect
import Bytecode.Proofs.Machine.Engine
import Bytecode.Proofs.Machine.Operands
import Bytecode.Proofs.Machine.Realization
import Bytecode.Proofs.Machine.Steps
import Bytecode.Proofs.Machine.Streams
import Bytecode.Proofs.Safety.Accounting
import Bytecode.Proofs.Safety.Assignment
import Bytecode.Proofs.Safety.Control
import Bytecode.Proofs.Safety.Discipline
import Bytecode.Proofs.Safety.Faults
import Bytecode.Proofs.Safety.Heights
import Bytecode.Proofs.Safety.Interference
import Bytecode.Proofs.Safety.Isolation
import Bytecode.Proofs.Safety.Lines
import Bytecode.Proofs.Safety.References
import Bytecode.Proofs.Safety.Sites
import Bytecode.Proofs.Safety.Stack
import Bytecode.Proofs.Safety.Termination
import Bytecode.Proofs.Safety.Traces
import Bytecode.Proofs.Safety.Truncation
import Bytecode.Proofs.Safety.Used
import Bytecode.Proofs.Scoping.Acceptance
import Bytecode.Proofs.Scoping.Mentions
import Bytecode.Proofs.Scoping.Recasting
import Bytecode.Proofs.Scoping.Resolution
import Bytecode.Proofs.Scoping.Scan
import Bytecode.Proofs.Scoping.Slots
import Bytecode.Proofs.Text.Characters
import Bytecode.Proofs.Text.Escapes
import Bytecode.Proofs.Text.Integers
import Bytecode.Proofs.Text.Longest
import Bytecode.Proofs.Text.Numeral
import Bytecode.Proofs.Text.Places
import Bytecode.Proofs.Tree.Doubles
import Bytecode.Proofs.Tree.Library
import Bytecode.Proofs.Tree.Nearest
import Bytecode.Proofs.Tree.Numbers
import Bytecode.Proofs.Tree.Programs
import Bytecode.Proofs.Tree.Reading
import Bytecode.Proofs.Tree.RoundTrip
import Bytecode.Proofs.Tree.Spelling
import Bytecode.Settings
import Bytecode.Settings.Text
import Bytecode.Stream
import Bytecode.Table
import Bytecode.Text.Escape
import Bytecode.Text.Hidden
import Bytecode.Text.Numeral
import Bytecode.Text.Quoted
import Bytecode.Text.Scan
import Bytecode.Tree
import Bytecode.Tree.Library
import Bytecode.Tree.Reader
import Bytecode.Tree.Schema
import Bytecode.Tree.Writer
import Bytecode.Value
