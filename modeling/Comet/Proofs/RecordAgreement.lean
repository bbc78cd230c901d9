import Comet.Proofs.Encodable

/-!
# Records that do the same

Two records do the same if their bodies have the same code and registers and their operands
agree: names and literals are equal, and numbers have the same word. Where they stand in a
source text does not matter. Such records have the same words.

A record is filled by numbers in the place of its operands, which keeps its form.
-/

namespace Comet

/-- The operands are the same, apart from their places. Numbers count modulo 65536. -/
def Operand.Agrees : Operand → Operand → Prop
  | resolved value, resolved value' => value % 65536 = value' % 65536
  | symbol name _, symbol name' _ => name = name'
  | literal l _, literal l' _ => l = l'
  | _, _ => False

/-- The operand stayed as it was, or a number of a word replaced it. -/
def Operand.IsFilled (operand operand' : Operand) : Prop :=
  operand' = operand ∨ operand'.IsWord

/-- The bodies have the same code and registers, the operands that are emitted are related
by `R`, and the targets of starts by `S`. -/
inductive Body.Matches (R S : Operand → Operand → Prop) : Body → Body → Prop
  | operation {code : UInt8} {r1 r2 : Option Register} {adr adr' : Option Operand}
      (address : Option.Rel R adr adr') :
      Matches R S (.operation code r1 r2 adr) (.operation code r1 r2 adr')
  | transfer {code : UInt8} {buffer buffer' length length' : Operand} (address : R buffer buffer')
      (address' : R length length') :
      Matches R S (.transfer code buffer length) (.transfer code buffer' length')
  | data {value value' : Operand} (word : R value value') :
      Matches R S (.data value) (.data value')
  | start {target target' : Option Operand} (entry : Option.Rel S target target') :
      Matches R S (.start target) (.start target')
  | finish : Matches R S .finish .finish
  | labelOnly : Matches R S .labelOnly .labelOnly

namespace Body.Matches

variable {R S : Operand → Operand → Prop} {b b' : Body}

theorem headWords_eq (h : b.Matches R S b') : b'.headWords = b.headWords := by
  cases h <;> rfl

theorem operands (h : b.Matches R S b') : List.Forall₂ R b.operands b'.operands := by
  cases h with
  | operation address =>
    cases address with
    | none => exact .nil
    | some address => exact .cons address .nil
  | transfer address address' => exact .cons address (.cons address' .nil)
  | data word => exact .cons word .nil
  | start | finish | labelOnly => exact .nil

/-- Every operand stands in the place of another one. -/
theorem exists_operand (h : b.Matches R S b') {operand' : Operand} (h' : operand' ∈ b'.operands) :
    ∃ operand ∈ b.operands, R operand operand' :=
  Traversal.exists_of_mem_forall₂ h.operands h'

/-- The form of a body does not depend on its operands. -/
theorem hasForm {m : Mnemonic} (h : b.Matches R S b') (hform : m.HasForm b) : m.HasForm b' := by
  cases h with
  | operation address =>
    cases address with
    | none => exact hform
    | some address =>
      cases hform with
      | address shape opcode index => exact .address shape opcode index
      | registerAddress shape opcode index => exact .registerAddress shape opcode index
  | transfer address address' =>
    cases hform with
    | transfer shape opcode => exact .transfer shape opcode
  | data word =>
    cases hform with
    | data shape => exact .data shape
  | start entry =>
    cases hform with
    | start shape => exact .start shape
  | finish | labelOnly => exact hform

/-- A relation of every operand to its replacement. -/
theorem mapOperands {f : Operand → Operand} (h : ∀ operand ∈ b.operands, R operand (f operand))
    (hrefl : ∀ operand, S operand operand) : b.Matches R S (b.mapOperands f) := by
  cases b with
  | operation code r1 r2 adr =>
    cases adr with
    | none => exact .operation .none
    | some adr => exact .operation (.some (h adr (.head _)))
  | transfer code buffer length =>
    exact .transfer (h buffer (.head _)) (h length (.tail _ (.head _)))
  | data value => exact .data (h value (.head _))
  | start target =>
    cases target with
    | none => exact .start .none
    | some target => exact .start (.some (hrefl target))
  | finish => exact .finish
  | labelOnly => exact .labelOnly

end Body.Matches

/-- The record stayed as it was, apart from numbers in the place of operands. -/
structure Record.IsFilled (r q : Record) : Prop where
  label : q.label = r.label
  mnemonic : q.mnemonic = r.mnemonic
  line : q.line = r.line
  body : r.body.Matches Operand.IsFilled Eq q.body

/-- Operands that agree have the same word, if they have one. -/
theorem Operand.word_of_agrees {operand operand' : Operand} (h : operand.Agrees operand')
    (hwf : operand.WellFormed) (hwf' : operand'.WellFormed) {line line' : Nat}
    (hline : line = line' ∨ operand.isResolved = true) :
    operand.word line = operand'.word line' := by
  match operand, operand', h with
  | .resolved value, .resolved value', h =>
    have hvalue : value % 65536 = value' % 65536 := h
    rw [Operand.word_resolved hwf, Operand.word_resolved hwf', Word.ofValue, Word.ofValue, hvalue]
  | .symbol name span, .symbol name' span', h =>
    obtain rfl := hline.resolve_right (by simp [isResolved])
    cases h
    rfl
  | .literal l span, .literal l' span', h =>
    obtain rfl := hline.resolve_right (by simp [isResolved])
    cases h
    rfl

theorem Operand.mapM_word_of_agrees {operands operands' : List Operand}
    (h : List.Forall₂ Agrees operands operands') (hwf : ∀ operand ∈ operands, operand.WellFormed)
    (hwf' : ∀ operand ∈ operands', operand.WellFormed) {line line' : Nat}
    (hline : line = line' ∨ operands.all isResolved = true) :
    operands.mapM (word line) = operands'.mapM (word line') := by
  induction h with
  | nil => rfl
  | cons hagrees _ ih =>
    rw [List.forall_mem_cons] at hwf hwf'
    rw [List.all_cons, Bool.and_eq_true] at hline
    have hword := word_of_agrees hagrees hwf.1 hwf'.1 (hline.imp_right And.left)
    rw [List.mapM_cons, List.mapM_cons, hword, ih hwf.2 hwf'.2 (hline.imp_right And.right)]

/-- Records that do the same have the same words. -/
theorem Record.words_of_matches {q r : Record}
    (h : q.body.Matches Operand.Agrees Operand.Agrees r.body)
    (hq : ∀ operand ∈ q.operands, operand.WellFormed)
    (hr : ∀ operand ∈ r.operands, operand.WellFormed)
    (hline : q.line = r.line ∨ q.isConfirmed = true) : q.words = r.words := by
  have hwords := Operand.mapM_word_of_agrees h.operands hq hr hline
  rw [words_eq, words_eq, h.headWords_eq, operands, operands, hwords]

theorem Record.IsFilled.wellFormed {r q : Record} (h : r.IsFilled q) (hr : r.WellFormed) :
    q.WellFormed := by
  obtain ⟨m, hm, hname, hform⟩ := hr.form
  refine ⟨⟨m, hm, hname.trans h.mnemonic.symm, h.body.hasForm hform⟩, ?_, ?_, ?_⟩
  · intro operand' hoperand'
    obtain ⟨operand, hoperand, rfl | ⟨value, rfl, hfits⟩⟩ := h.body.exists_operand hoperand'
    · exact hr.operands _ hoperand
    · exact hfits
  · rw [h.label]
    exact hr.label
  · intro target htarget
    have hbody := h.body
    rw [htarget] at hbody
    generalize hrbody : r.body = b at hbody
    cases hbody with
    | start entry =>
      cases entry with
      | some heq => exact hr.entry target (heq ▸ hrbody)

theorem Record.isFilled_mapOperands {r : Record} {f : Operand → Operand}
    (h : ∀ operand ∈ r.operands, operand.IsFilled (f operand)) : r.IsFilled (r.mapOperands f) :=
  ⟨rfl, rfl, rfl, .mapOperands h fun _ => rfl⟩

end Comet
