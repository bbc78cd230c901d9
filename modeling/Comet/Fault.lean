/-!
# Faults

A fault is a demand that no source text leads to. It arises only from tokens or
records that were put together by hand: a token whose text does not fit its kind,
an instruction that the table does not have, an operation code without a length,
or a record of a line that is not in the source.
-/

namespace Comet

/-- Why a result cannot be given for hand-made tokens or records. -/
inductive Fault
  /-- The instruction table has no such mnemonic. -/
  | unknownMnemonic (name : String)
  /-- The mnemonic is a directive where an operation is needed. -/
  | noOpcode (name : String)
  /-- No instruction has this code. -/
  | unknownOpcode (code : UInt8)
  /-- The text of a constant is not marked or quoted as its kind demands. -/
  | malformedConstant (text : String)
  /-- The source has no such line. -/
  | noSuchLine (line : Nat)
  deriving DecidableEq, Repr

end Comet
