import Comet.Proofs.Spelling
import Comet.Record.Encoding

/-!
# The form of records

What a record may be is fixed by the row of its mnemonic in the instruction table:
which operation codes it has, which registers and addresses stand beside them, and
for a directive what it stands for. `Mnemonic.HasForm` says so without mentioning
how lines are read, and a record that came from a source text is `WellFormed`.

The length of a record is a table on its code, while its words follow from the
operands that are there. `Record.WellFormed.isMeasured` joins the two.
-/

namespace Comet

/-- A name that a source text can give to a label. -/
structure IsLabelName (name : String) : Prop where
  spelled : Token.IsName name.toList
  unreserved : Register.isName name = false

/-- A literal that stands for storage and whose words fit in it. -/
structure Literal.WellFormed (l : Literal) : Prop where
  nonempty : l.words ≠ []
  fits : ∀ value ∈ l.words, Word.fits value = true

/-- An operand that a source text can have. -/
def Operand.WellFormed : Operand → Prop
  | resolved value => Word.fits value = true
  | symbol name _ => IsLabelName name
  | literal l _ => l.WellFormed

namespace Mnemonic

/-- The bodies that an instruction may have, by its row in the table. An absent
index register is not the same as the first register, which cannot index. -/
inductive HasForm (m : Mnemonic) : Body → Prop
  | bare {code : UInt8} (shape : m.shape = .none) (opcode : m.code = some code) :
      HasForm m (.operation code none none none)
  | finish (shape : m.shape = .none) (opcode : m.code = none) : HasForm m .finish
  | register {code : UInt8} {r : Register} (shape : m.shape = .register)
      (opcode : m.code = some code) : HasForm m (.operation code (some r) none none)
  | address {code : UInt8} {x : Option Register} {adr : Operand} (shape : m.shape = .address)
      (opcode : m.code = some code) (index : x ≠ some .gr0) :
      HasForm m (.operation code none x (some adr))
  | registerAddress {code : UInt8} {r : Register} {x : Option Register} {adr : Operand}
      (shape : m.shape = .registerAddress ∨ m.shape = .registerOrAddress)
      (opcode : m.code = some code) (index : x ≠ some .gr0) :
      HasForm m (.operation code (some r) x (some adr))
  | registers {code : UInt8} {r1 r2 : Register} (shape : m.shape = .registerOrAddress)
      (opcode : m.code = some code) :
      HasForm m (.operation (Opcode.registerForm code) (some r1) (some r2) none)
  | transfer {code : UInt8} {buffer length : Operand} (shape : m.shape = .buffer)
      (opcode : m.code = some code) : HasForm m (.transfer code buffer length)
  | start {target : Option Operand} (shape : m.shape = .entry) : HasForm m (.start target)
  | labelOnly (shape : m.shape = .wordCount) : HasForm m .labelOnly
  | filler (shape : m.shape = .wordCount) :
      HasForm m (.operation Opcode.nop none none none)
  | data {value : Operand} (shape : m.shape = .constants) : HasForm m (.data value)

/-- The length in bytes of the operations of a shape, other than the form with two
registers. -/
def operationLength : Shape → Nat
  | .none | .register => 2
  | .buffer => 6
  | _ => 4

/-- The table of lengths has every code of the instruction table. -/
theorem byteLength?_opcode {m : Mnemonic} (hm : m ∈ table) {code : UInt8}
    (hcode : m.code = some code) :
    Opcode.byteLength? code = some (operationLength m.shape) := by
  have hall : ∀ m ∈ table, ∀ code ∈ m.code,
      Opcode.byteLength? code = some (operationLength m.shape) := by decide +kernel
  exact hall m hm code hcode

theorem byteLength?_registerForm {m : Mnemonic} (hm : m ∈ table) {code : UInt8}
    (hcode : m.code = some code) (hshape : m.shape = .registerOrAddress) :
    Opcode.byteLength? (Opcode.registerForm code) = some 2 := by
  have hall : ∀ m ∈ table, m.shape = .registerOrAddress → ∀ code ∈ m.code,
      Opcode.byteLength? (Opcode.registerForm code) = some 2 := by decide +kernel
  exact hall m hm hshape code hcode

end Mnemonic

namespace Body

/-- The words of a body before those of its operands. -/
def headWords : Body → List Word
  | operation code r1 r2 _ => [head code r1 r2]
  | transfer code _ _ => [head code none none]
  | _ => []

/-- The number of words of a body. -/
def wordCount (b : Body) : Nat := b.headWords.length + b.operands.length

/-- The table of lengths agrees with the words that are emitted. -/
theorem byteLength?_of_hasForm {m : Mnemonic} (hm : m ∈ Mnemonic.table) {b : Body}
    (h : m.HasForm b) : b.byteLength? = some (2 * b.wordCount) := by
  cases h with
  | bare shape opcode | register shape opcode | address shape opcode | transfer shape opcode =>
    simp [byteLength?, Mnemonic.byteLength?_opcode hm opcode, shape, Mnemonic.operationLength,
      wordCount, headWords, operands]
  | registerAddress shape opcode =>
    rcases shape with shape | shape <;>
      simp [byteLength?, Mnemonic.byteLength?_opcode hm opcode, shape,
        Mnemonic.operationLength, wordCount, headWords, operands]
  | registers shape opcode =>
    simp [byteLength?, Mnemonic.byteLength?_registerForm hm opcode shape, wordCount, headWords,
      operands]
  | filler => rfl
  | finish | start | labelOnly | data => rfl

end Body

namespace Record

/-- A record that a source text can have. Its target, if it starts a subroutine, is
the name of a label. -/
structure WellFormed (r : Record) : Prop where
  form : ∃ m ∈ Mnemonic.table, m.name = r.mnemonic ∧ m.HasForm r.body
  operands : ∀ operand ∈ r.operands, operand.WellFormed
  label : ∀ name ∈ r.label, IsLabelName name
  entry : ∀ target, r.body = .start (some target) →
    ∃ name span, target = .symbol name span ∧ IsLabelName name

/-- The number of words that a record emits. -/
def wordCount (r : Record) : Nat := r.body.wordCount

/-- Lengths in bytes and in words agree on a record. Every phase of the assembly
keeps this, because none of them adds or removes an operand. -/
def IsMeasured (r : Record) : Prop := r.byteLength = 2 * r.wordCount

theorem WellFormed.isMeasured {r : Record} (h : r.WellFormed) : r.IsMeasured := by
  obtain ⟨m, hm, -, hform⟩ := h.form
  simp [IsMeasured, byteLength, wordCount, Body.byteLength?_of_hasForm hm hform]

/-- The words of a record are those of its head and then those of its operands. -/
theorem words_eq (r : Record) :
    r.words = (r.operands.mapM (Operand.word r.line)).map (r.body.headWords ++ ·) := by
  rw [words, operands]
  cases r.body with
  | operation code r1 r2 adr =>
    cases adr with
    | none => rfl
    | some adr =>
      simp only [Body.operands, Body.headWords, List.mapM_cons, List.mapM_nil]
      cases adr.word r.line <;> rfl
  | transfer code buffer length =>
    simp only [Body.operands, Body.headWords, List.mapM_cons, List.mapM_nil]
    cases buffer.word r.line <;> cases length.word r.line <;> rfl
  | data value =>
    simp only [Body.operands, Body.headWords, List.mapM_cons, List.mapM_nil]
    cases value.word r.line <;> rfl
  | start target => rfl
  | finish => rfl
  | labelOnly => rfl

end Record

end Comet
