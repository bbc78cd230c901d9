/-!
# Mnemonics

The instructions of the assembly language: the machine's operations with their
codes, and the four directives that have none. The `Shape` of an instruction is
the pattern of its operands.
-/

namespace Comet

/-- The pattern of the operands of an instruction. -/
inductive Shape
  /-- No operands. -/
  | none
  /-- `r` -/
  | register
  /-- `adr[,x]` -/
  | address
  /-- `r,adr[,x]` -/
  | registerAddress
  /-- `r1,r2` or `r,adr[,x]` -/
  | registerOrAddress
  /-- `buffer,length` -/
  | buffer
  /-- A number of words. -/
  | wordCount
  /-- `constant[,constant]...` -/
  | constants
  /-- `[label]` -/
  | entry
  deriving DecidableEq, Repr

/-- A row of the instruction table. A directive has no operation code. -/
structure Mnemonic where
  name : String
  code : Option UInt8
  shape : Shape
  deriving DecidableEq, Repr

namespace Mnemonic

/-- The row of an operation of the machine. -/
def operation (name : String) (code : UInt8) (shape : Shape) : Mnemonic :=
  { name, code := some code, shape }

/-- The row of a directive to the assembler. -/
def directive (name : String) (shape : Shape) : Mnemonic :=
  { name, code := none, shape }

/-- The instruction table. -/
def table : List Mnemonic :=
  [ operation "NOP" 0x00 .none,
    operation "LD" 0x10 .registerOrAddress,
    operation "ST" 0x11 .registerAddress,
    operation "LAD" 0x12 .registerAddress,
    operation "ADDA" 0x20 .registerOrAddress,
    operation "SUBA" 0x21 .registerOrAddress,
    operation "ADDL" 0x22 .registerOrAddress,
    operation "SUBL" 0x23 .registerOrAddress,
    operation "AND" 0x30 .registerOrAddress,
    operation "OR" 0x31 .registerOrAddress,
    operation "XOR" 0x32 .registerOrAddress,
    operation "CPA" 0x40 .registerOrAddress,
    operation "CPL" 0x41 .registerOrAddress,
    operation "SLA" 0x50 .registerAddress,
    operation "SRA" 0x51 .registerAddress,
    operation "SLL" 0x52 .registerAddress,
    operation "SRL" 0x53 .registerAddress,
    operation "JMI" 0x61 .address,
    operation "JNZ" 0x62 .address,
    operation "JZE" 0x63 .address,
    operation "JUMP" 0x64 .address,
    operation "JPL" 0x65 .address,
    operation "JOV" 0x66 .address,
    operation "PUSH" 0x70 .address,
    operation "POP" 0x71 .register,
    operation "CALL" 0x80 .address,
    operation "RET" 0x81 .none,
    operation "SVC" 0xF0 .address,
    operation "IN" 0x90 .buffer,
    operation "OUT" 0x91 .buffer,
    operation "RPUSH" 0xA0 .none,
    operation "RPOP" 0xA1 .none,
    directive "START" .entry,
    directive "END" .none,
    directive "DS" .wordCount,
    directive "DC" .constants ]

/-- The row of the given name. -/
def ofName? (name : String) : Option Mnemonic :=
  table.find? (·.name == name)

theorem mem_of_ofName? {name : String} {m : Mnemonic} (h : ofName? name = some m) :
    m ∈ table :=
  List.mem_of_find?_eq_some h

theorem name_of_ofName? {name : String} {m : Mnemonic} (h : ofName? name = some m) :
    m.name = name := by
  simpa using List.find?_some h

section

variable {m : Mnemonic} (hm : m ∈ table)

include hm

/-- No two rows have the same name. -/
theorem ofName?_name : ofName? m.name = some m := by
  have hall : ∀ m ∈ table, ofName? m.name = some m := by decide +kernel
  exact hall m hm

/-- Names consist of letters in upper case. -/
theorem isUpper_name : m.name.toList ≠ [] ∧ ∀ c ∈ m.name.toList, c.isUpper = true := by
  have hall : ∀ m ∈ table, m.name.toList ≠ [] ∧ m.name.toList.all Char.isUpper = true := by
    decide +kernel
  exact ⟨(hall m hm).1, List.all_eq_true.1 (hall m hm).2⟩

/-- Transfers and directives have shapes of their own, apart from the end of a program,
which has no code. -/
theorem shape_iff_name :
    (m.shape = .buffer ↔ m.name = "IN" ∨ m.name = "OUT") ∧
      (m.shape = .entry ↔ m.name = "START") ∧ (m.shape = .wordCount ↔ m.name = "DS") ∧
      (m.shape = .constants ↔ m.name = "DC") ∧
      (m.shape = .none ∧ m.code = none ↔ m.name = "END") := by
  have hall : ∀ m ∈ table, (m.shape = .buffer ↔ m.name = "IN" ∨ m.name = "OUT") ∧
      (m.shape = .entry ↔ m.name = "START") ∧ (m.shape = .wordCount ↔ m.name = "DS") ∧
      (m.shape = .constants ↔ m.name = "DC") ∧
      (m.shape = .none ∧ m.code = none ↔ m.name = "END") := by decide +kernel
  exact hall m hm

end

end Mnemonic

end Comet
