import Comet.Diagnostic
import Comet.Token

/-!
# Slots of a statement

A slot is a place in a statement that a token has to fill. It says which tokens
fill it and what to report if another token stands there or if the line ends.
-/

namespace Comet.Statement

/-- The places of a statement. -/
inductive Slot
  | space
  | comma
  | mnemonic
  | firstRegister
  | secondRegister
  | register
  | index
  | address
  | inputBuffer
  | inputLength
  | outputBuffer
  | outputLength
  | wordCount
  | constant
  | entryLabel
  deriving DecidableEq, Repr

namespace Slot

/-- The tokens that fill a slot. -/
def accepts : Slot → Token.Kind → Bool
  | space, kind => kind == .space
  | comma, kind => kind == .comma
  | mnemonic, kind => kind == .mnemonic
  | firstRegister, kind | secondRegister, kind | register, kind | index, kind =>
    kind == .register
  | address, kind | inputBuffer, kind | inputLength, kind | outputBuffer, kind
  | outputLength, kind => kind.isAddress
  | wordCount, kind => kind == .constant .decimal
  | constant, kind => kind.isConstant
  | entryLabel, kind => kind == .label || kind == .mnemonic

/-- What is expected in a slot. -/
def category : Slot → Diagnostic.Category
  | space => .space
  | comma => .comma
  | mnemonic => .mnemonic
  | firstRegister | secondRegister | register | index => .register
  | address | inputBuffer | inputLength | outputBuffer | outputLength => .address
  | wordCount => .wordCount
  | constant => .constant
  | entryLabel => .label

/-- What to report if the line ends at a slot. Separators and entry labels have
no report of their own. -/
def absence : Slot → Diagnostic.Kind
  | mnemonic => .missing .instruction
  | firstRegister => .missing .firstRegister
  | secondRegister | index => .missing .secondRegister
  | register => .missing .register
  | address => .missing .address
  | inputBuffer => .missing .inputBuffer
  | inputLength => .missing .inputLength
  | outputBuffer => .missing .outputBuffer
  | outputLength => .missing .outputLength
  | wordCount => .missing .wordCount
  | constant => .missing .constants
  | space => .expected .space
  | comma => .expected .comma
  | entryLabel => .expected .label

/-- What to report if a token that does not fill the slot stands there. -/
def report (slot : Slot) (found : Token.Kind) : Diagnostic.Kind :=
  if found.endsLine then slot.absence else .expected slot.category

end Slot

end Comet.Statement
