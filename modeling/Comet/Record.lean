import Comet.Diagnostic
import Comet.Fault
import Comet.Opcode
import Comet.Operand
import Comet.Token

/-!
# Records

A record is one unit of the program: an instruction with its operands, a data
word, a filler word of reserved storage, or a directive that emits nothing. Most
source lines give one record, and only the first record of a line carries the
line's label and tokens.

The length of a record follows from its operation code, so it is known before
any operand is. Lengths and offsets are counted in bytes, addresses in words.
-/

namespace Comet

/-- What a record does. -/
inductive Body
  /-- An operation with at most one address. -/
  | operation (code : UInt8) (r1 r2 : Option Register) (adr : Option Operand)
  /-- Input or output through a buffer. -/
  | transfer (code : UInt8) (buffer length : Operand)
  /-- A data word. -/
  | data (value : Operand)
  /-- The start of a subroutine, with the label of its first instruction if that
  is not the one that follows. -/
  | start (target : Option Operand)
  /-- The end of a subroutine. -/
  | finish
  /-- A label without storage. -/
  | labelOnly
  deriving DecidableEq, Repr

namespace Body

/-- The length in bytes of what the body emits. -/
def byteLength? : Body → Option Nat
  | operation code _ _ _ | transfer code _ _ => Opcode.byteLength? code
  | data _ => some 2
  | start _ | finish | labelOnly => some 0

/-- The operands that are emitted, in order. The target of a start is not among
them, because its label is redirected instead. -/
def operands : Body → List Operand
  | operation _ _ _ (some adr) => [adr]
  | transfer _ buffer length => [buffer, length]
  | data value => [value]
  | _ => []

/-- Replaces the operands that are emitted. -/
def mapOperands (f : Operand → Operand) : Body → Body
  | operation code r1 r2 adr => operation code r1 r2 (adr.map f)
  | transfer code buffer length => transfer code (f buffer) (f length)
  | data value => data (f value)
  | body => body

@[simp] theorem byteLength?_mapOperands (f : Operand → Operand) (b : Body) :
    (b.mapOperands f).byteLength? = b.byteLength? := by
  cases b <;> rfl

@[simp] theorem operands_mapOperands (f : Operand → Operand) (b : Body) :
    (b.mapOperands f).operands = b.operands.map f := by
  cases b with
  | operation code r1 r2 adr => cases adr <;> rfl
  | _ => rfl

end Body

/-- One unit of the program. -/
structure Record where
  label : Option String
  mnemonic : String
  body : Body
  line : Nat
  /-- Set on all but the first record of a line, and on pooled data. -/
  continuation : Bool := false
  scope : Nat := 1
  /-- The number of bytes emitted before this record. -/
  offset : Nat := 0
  /-- The tokens of the line, on its first record. -/
  tokens : List Token := []
  deriving DecidableEq, Repr

namespace Record

/-- A record without tokens, not yet laid out. Its operation code must have a
length. -/
def make (mnemonic : String) (body : Body) (label : Option String) (line : Nat) :
    Except Fault Record :=
  match body with
  | .operation code _ _ _ | .transfer code _ _ =>
    if (Opcode.byteLength? code).isSome then .ok { label, mnemonic, body, line }
    else .error (.unknownOpcode code)
  | _ => .ok { label, mnemonic, body, line }

/-- A word of pooled data. -/
def pooledWord (label : Option String) (line : Nat) (value : Int) : Record :=
  { label, mnemonic := "DC", body := .data (.resolved value), line, continuation := true }

variable (r : Record)

/-- The length in bytes of what the record emits. -/
def byteLength : Nat := r.body.byteLength?.getD 0

/-- The address of the record's first word, relative to the program's start. -/
def address : Nat := r.offset / 2

/-- The operands that are emitted, in order. -/
def operands : List Operand := r.body.operands

/-- Whether every operand that is emitted is a number. -/
def isConfirmed : Bool := r.operands.all Operand.isResolved

/-- Replaces the operands that are emitted. -/
def mapOperands (f : Operand → Operand) : Record :=
  { r with body := r.body.mapOperands f }

@[simp] theorem byteLength_mapOperands (f : Operand → Operand) :
    (r.mapOperands f).byteLength = r.byteLength := by
  simp [byteLength, mapOperands]

@[simp] theorem operands_mapOperands (f : Operand → Operand) :
    (r.mapOperands f).operands = r.operands.map f := by
  simp [operands, mapOperands]

/-- Where the label stands: at the first token of the line, if that is the
label. -/
def labelSpan : Span :=
  match r.tokens with
  | token :: _ => if r.label = some token.text then token.span else .none
  | [] => .none

/-- The location of the label. -/
def labelLocation : Location := ⟨r.line, r.labelSpan⟩

/-- The number of characters that a label may have. -/
def maxLabelLength : Nat := 8

/-- The problems of a record that do not depend on other records. -/
def check : List Diagnostic :=
  match r.label with
  | some name =>
    if maxLabelLength < name.length then [⟨r.labelLocation, .tooLongLabel name⟩] else []
  | none => []

end Record

end Comet
