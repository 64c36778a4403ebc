/-! Settings of a run: which diagnostics are written beside the output. -/

namespace Bytecode

/-- Whether every instruction is traced, and whether executed instructions are counted by mnemonic. -/
structure Settings where
  trace : Bool := false
  profileOpcodes : Bool := false
  deriving DecidableEq, Repr

end Bytecode
