import Comet.Statement.Constant

/-!
# Operands of an instruction

The shape of an instruction decides which operands are read and in what order.
They are separated by commas. Where an instruction takes a second register or an
address, whatever cannot be an address is read as a register.
-/

namespace Comet.Statement

/-- The operands of an instruction, by its shape. -/
inductive Operands
  | none
  | register (r : Register)
  | address (adr : Operand) (index : Option Register)
  | registerAddress (r : Register) (adr : Operand) (index : Option Register)
  | registers (r1 r2 : Register)
  | buffer (buffer length : Operand)
  | entry (target : Option Operand)
  | wordCount (count : Nat)
  | constants (words : List Operand)
  deriving DecidableEq, Repr

namespace Line

variable (line : Line)

/-- Reads a register. -/
def register (slot : Slot) (tokens : List Token) : Except Stop (Register × List Token) := do
  let (token, tokens) ← line.expect slot tokens
  match Register.ofName? token.text with
  | some r => return (r, tokens)
  | none => line.problemFrom token.span.start (.expected .register)

/-- Reads an address. -/
def address (slot : Slot) (tokens : List Token) : Except Stop (Operand × List Token) := do
  let (token, tokens) ← line.expect slot tokens
  let operand ← line.addressOf token
  return (operand, tokens)

/-- Reads the index register that may follow an address. The first register
cannot index, because its number stands for no index. -/
def index (tokens : List Token) : Except Stop (Option Register × List Token) :=
  if atEnd tokens then .ok (none, tokens)
  else do
    let (_, tokens) ← line.expect .comma tokens
    let start := (line.next tokens).span.start
    let (r, tokens) ← line.register .index tokens
    if r = .gr0 then line.problem ⟨start, start + 3⟩ .zeroIndex
    else return (some r, tokens)

/-- Reads an address with its index register. -/
def indexedAddress (tokens : List Token) :
    Except Stop (Operand × Option Register × List Token) := do
  let (adr, tokens) ← line.address .address tokens
  let (x, tokens) ← line.index tokens
  return (adr, x, tokens)

/-- Reads a buffer and its length. -/
def buffer (bufferSlot lengthSlot : Slot) (tokens : List Token) :
    Except Stop (Operands × List Token) := do
  let tokens ← line.separator .space bufferSlot tokens
  let (buffer, tokens) ← line.address bufferSlot tokens
  let tokens ← line.separator .comma lengthSlot tokens
  let (length, tokens) ← line.address lengthSlot tokens
  return (.buffer buffer length, tokens)

/-- Reads the number of words to reserve. -/
def wordCount (tokens : List Token) : Except Stop (Nat × List Token) := do
  let (token, tokens) ← line.expect .wordCount tokens
  let count ← line.value token token.text.toList
  if count < 0 then line.problem token.span .invalidWordCount
  else return (count.toNat, tokens)

/-- Reads a constant. -/
def dataWords (tokens : List Token) : Except Stop (List Operand × List Token) := do
  let (token, tokens) ← line.expect .constant tokens
  let words ← line.dataOf token
  return (words, tokens)

/-- Reads constants as long as commas follow them. -/
def constants : List Token → Except Stop (List Operand × List Token)
  | [] => line.dataWords []
  | [token] => line.dataWords [token]
  | token :: comma :: rest => do
    let (words, _) ← line.dataWords [token]
    if comma.kind = .comma then
      let (more, rest) ← constants rest
      return (words ++ more, rest)
    else return (words, comma :: rest)

/-- Reads the operands of an instruction. -/
def operands (m : Mnemonic) (tokens : List Token) : Except Stop (Operands × List Token) :=
  match m.shape with
  | .none => .ok (.none, tokens)
  | .register => do
    let tokens ← line.separator .space .register tokens
    let (r, tokens) ← line.register .register tokens
    return (.register r, tokens)
  | .address => do
    let tokens ← line.separator .space .address tokens
    let (adr, x, tokens) ← line.indexedAddress tokens
    return (.address adr x, tokens)
  | .registerAddress => do
    let tokens ← line.separator .space .firstRegister tokens
    let (r, tokens) ← line.register .firstRegister tokens
    let tokens ← line.separator .comma .address tokens
    let (adr, x, tokens) ← line.indexedAddress tokens
    return (.registerAddress r adr x, tokens)
  | .registerOrAddress => do
    let tokens ← line.separator .space .firstRegister tokens
    let (r1, tokens) ← line.register .firstRegister tokens
    let tokens ← line.separator .comma .address tokens
    if (line.next tokens).kind.isAddress then
      let (adr, x, tokens) ← line.indexedAddress tokens
      return (.registerAddress r1 adr x, tokens)
    else
      let (r2, tokens) ← line.register .secondRegister tokens
      return (.registers r1 r2, tokens)
  | .buffer =>
    if m.name = "IN" then line.buffer .inputBuffer .inputLength tokens
    else line.buffer .outputBuffer .outputLength tokens
  | .entry =>
    if atEnd tokens then .ok (.entry none, tokens)
    else do
      let (_, tokens) ← line.expect .space tokens
      let (token, tokens) ← line.expect .entryLabel tokens
      let target ← line.symbol token
      return (.entry (some target), tokens)
  | .wordCount => do
    let tokens ← line.separator .space .wordCount tokens
    let (count, tokens) ← line.wordCount tokens
    return (.wordCount count, tokens)
  | .constants => do
    let tokens ← line.separator .space .constant tokens
    let (words, tokens) ← line.constants tokens
    return (.constants words, tokens)

end Line

end Comet.Statement
