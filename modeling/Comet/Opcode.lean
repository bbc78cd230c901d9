/-!
# Operation codes

An operation code is the high byte of an instruction's first word. It fixes the
instruction's length: one word for the operations without an address, two for
those with one, three for buffered input and output. Other bytes are no codes.
-/

namespace Comet.Opcode

/-- The length in bytes of an instruction with the given code. -/
def byteLength? (code : UInt8) : Option Nat :=
  match code.toNat with
  | 0x00 | 0x14 | 0x24 | 0x25 | 0x26 | 0x27 | 0x34 | 0x35 | 0x36 | 0x44 | 0x45
  | 0x71 | 0x81 | 0xA0 | 0xA1 => some 2
  | 0x10 | 0x11 | 0x12 | 0x20 | 0x21 | 0x22 | 0x23 | 0x30 | 0x31 | 0x32 | 0x40 | 0x41
  | 0x50 | 0x51 | 0x52 | 0x53 | 0x61 | 0x62 | 0x63 | 0x64 | 0x65 | 0x66
  | 0x70 | 0x80 | 0xF0 => some 4
  | 0x90 | 0x91 => some 6
  | _ => none

/-- The code of the operation that does nothing, which fills reserved storage. -/
def nop : UInt8 := 0x00

/-- The code of the form with two registers, from the code of the form with an
address. -/
def registerForm (code : UInt8) : UInt8 := code + 4

end Comet.Opcode
