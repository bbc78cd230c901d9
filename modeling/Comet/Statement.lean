import Comet.Record
import Comet.Statement.Operands

/-!
# Statements

A source line is empty or a statement: an optional label, an instruction and its
operands. A statement denotes the records that it adds to the program. The first
problem of a line stops the reading of that line, which then adds no records.
-/

namespace Comet

/-- An instruction with its label and operands. -/
structure Statement where
  label : Option String
  mnemonic : Mnemonic
  operands : Statement.Operands
  deriving DecidableEq, Repr

namespace Statement

namespace Line

variable (line : Line)

/-- Whether a line that begins with the name of an instruction uses it as a
label, which it does only before another instruction. -/
def labelsInstruction : List Token → Bool
  | _ :: space :: mnemonic :: _ => space.kind == .space && mnemonic.kind == .mnemonic
  | _ => false

/-- Reads the blank after a label. A label must not have a reserved name. -/
def labelled (token : Token) (tokens : List Token) :
    Except Stop (Option String × List Token) := do
  let (_, tokens) ← line.expect .space tokens
  if Register.isName token.text then line.problem token.span (.reservedLabel token.text)
  else return (some token.text, tokens)

/-- Reads what stands before the instruction: a label and a blank, or a blank, or
nothing. -/
def label (tokens : List Token) : Except Stop (Option String × List Token) :=
  match (line.next tokens).kind with
  | .space => .ok (none, tokens.tail)
  | .mnemonic =>
    if labelsInstruction tokens then line.labelled (line.next tokens) tokens.tail
    else .ok (none, tokens)
  | .label => line.labelled (line.next tokens) tokens.tail
  | _ => line.problemFrom (line.next tokens).span.start (.expected .labelOrMnemonic)

/-- Reads a statement. The tokens that are left do not belong to it. -/
def statement (tokens : List Token) : Except Stop (Statement × List Token) := do
  let (label, tokens) ← line.label tokens
  let (token, tokens) ← line.expect .mnemonic tokens
  match Mnemonic.ofName? token.text with
  | none => .error (.fault (.unknownMnemonic token.text))
  | some mnemonic =>
    let (operands, tokens) ← line.operands mnemonic tokens
    return ({ label, mnemonic, operands }, tokens)

end Line

/-- The operation code of an instruction. -/
def opcode (m : Mnemonic) : Except Fault UInt8 :=
  match m.code with
  | some code => .ok code
  | none => .error (.noOpcode m.name)

/-- What the records of a statement do. Reserved storage is filled with operations
that do nothing. -/
def bodies (s : Statement) : Except Fault (List Body) :=
  match s.operands with
  | .none =>
    match s.mnemonic.code with
    | some code => .ok [.operation code none none none]
    | none => .ok [.finish]
  | .register r => do
    return [.operation (← opcode s.mnemonic) (some r) none none]
  | .address adr x => do
    return [.operation (← opcode s.mnemonic) none x (some adr)]
  | .registerAddress r adr x => do
    return [.operation (← opcode s.mnemonic) (some r) x (some adr)]
  | .registers r1 r2 => do
    return [.operation (Opcode.registerForm (← opcode s.mnemonic)) (some r1) (some r2) none]
  | .buffer buffer length => do
    return [.transfer (← opcode s.mnemonic) buffer length]
  | .entry target => .ok [.start target]
  | .wordCount 0 => .ok [.labelOnly]
  | .wordCount count => .ok (List.replicate count (.operation Opcode.nop none none none))
  | .constants words => .ok (words.map .data)

/-- The records of a statement on the given line. The first one carries the label
and the tokens of the line. -/
def records (s : Statement) (line : Nat) (tokens : List Token) : Except Fault (List Record) := do
  match ← s.bodies with
  | [] => return []
  | body :: rest =>
    let first ← Record.make s.mnemonic.name body s.label line
    let others ← rest.mapM fun body => Record.make s.mnemonic.name body none line
    return { first with tokens } :: others.map fun r => { r with continuation := true }

/-- What reading a line gives. -/
structure Reading where
  records : List Record
  diagnostics : List Diagnostic
  deriving DecidableEq, Repr

/-- Reads the tokens of a line. -/
def read (number : Nat) (tokens : List Token) : Except Fault Reading :=
  let line := Line.ofTokens number tokens
  if atEnd tokens then .ok ⟨[], []⟩
  else
    match line.statement tokens with
    | .error (.problem d) => .ok ⟨[], [d]⟩
    | .error (.fault f) => .error f
    | .ok (statement, rest) => do
      let records ← statement.records number tokens
      return ⟨records, line.remark rest⟩

end Statement

end Comet
