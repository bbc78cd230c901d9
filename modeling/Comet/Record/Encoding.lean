import Comet.Record

/-!
# Machine code

The words of a record. The first word of an operation holds its code in the high
byte and two registers in the low byte; an absent register counts as zero. An
address follows in a word of its own.
-/

namespace Comet

/-- Why a program has no machine code. -/
inductive EncodingError
  /-- An operand is not a number yet. -/
  | unresolved (line : Nat) (name : String)
  /-- An operand does not fit in a word. -/
  | overflow (line : Nat) (value : Int)
  /-- The label at which execution is to begin has no address. -/
  | noEntryPoint (name : String)
  deriving DecidableEq, Repr

namespace EncodingError

def message : EncodingError → String
  | unresolved line name => s!"line {line}: operand `{name}` reached the encoder unresolved"
  | overflow line value => s!"line {line}: value {value} does not fit in a word"
  | noEntryPoint name => s!"entry label `{name}` has no address"

end EncodingError

/-- The word of an operand of the given line. -/
def Operand.word (line : Nat) : Operand → Except EncodingError Word
  | resolved value =>
    if Word.fits value then .ok (.ofValue value) else .error (.overflow line value)
  | symbol name _ => .error (.unresolved line name)
  | literal l _ => .error (.unresolved line l.text)

namespace Body

/-- The field of a register in a machine word. -/
def registerField (r : Option Register) : Nat :=
  (r.map Register.number).getD 0

/-- The first word of an operation. -/
def head (code : UInt8) (r1 r2 : Option Register) : Word :=
  UInt16.ofNat (code.toNat * 256 + registerField r1 * 16 + registerField r2)

end Body

namespace Record

/-- The machine code of a record. -/
def words (r : Record) : Except EncodingError (List Word) :=
  match r.body with
  | .operation code r1 r2 none => .ok [Body.head code r1 r2]
  | .operation code r1 r2 (some adr) => do
    let adr ← adr.word r.line
    return [Body.head code r1 r2, adr]
  | .transfer code buffer length => do
    let buffer ← buffer.word r.line
    let length ← length.word r.line
    return [Body.head code none none, buffer, length]
  | .data value => do
    let value ← value.word r.line
    return [value]
  | .start _ | .finish | .labelOnly => .ok []

end Record

end Comet
