import Comet.Proofs.RecordAgreement

/-!
# Decoding machine code

The first word of an operation says which instruction it is, and in which form, because
every operation code stands in one place of the instruction table only and the codes of
the forms with two registers are none of the others. The form says which registers are
there and how many words follow. An index register is there exactly if its field is not
zero, because the first register cannot index.

So machine code can be decoded from its beginning, one instruction after another, and no
two programs of operations have the same code, unless they differ in nothing but how
their numbers are written (`sameOperations_of_code_eq`).
-/

namespace Comet

/-- The register with the given number. -/
def Register.ofNumber? (n : Nat) : Option Register := all[n]?

@[simp] theorem Register.ofNumber?_number (r : Register) : ofNumber? r.number = some r := by
  cases r <;> rfl

/-- The operand with a number from 0 to 65535 in place of its own. -/
def Operand.reduced : Operand → Operand
  | resolved value => resolved (value % 65536)
  | operand => operand

theorem Operand.agrees_of_reduced_eq {operand operand' : Operand} (hword : operand.IsWord)
    (hword' : operand'.IsWord) (h : operand.reduced = operand'.reduced) :
    operand.Agrees operand' := by
  obtain ⟨value, rfl, -⟩ := hword
  obtain ⟨value', rfl, -⟩ := hword'
  exact Operand.resolved.inj h

/-- Bodies of operations with the same reduced numbers do the same. -/
theorem Body.matches_of_reduced_eq {b b' : Body} (hwords : ∀ operand ∈ b.operands, operand.IsWord)
    (hwords' : ∀ operand ∈ b'.operands, operand.IsWord) (hstart : ∀ target, b ≠ .start target)
    (h : b.mapOperands Operand.reduced = b'.mapOperands Operand.reduced) :
    b.Matches Operand.Agrees Operand.Agrees b' := by
  cases b with
  | operation code r1 r2 adr =>
    cases b' with
    | operation code' r1' r2' adr' =>
      obtain ⟨rfl, rfl, rfl, hadr⟩ := Body.operation.inj h
      cases adr with
      | none =>
        cases adr' with
        | none => exact .operation .none
        | some adr' => cases hadr
      | some adr =>
        cases adr' with
        | none => cases hadr
        | some adr' =>
          exact .operation (.some (Operand.agrees_of_reduced_eq (hwords adr (.head _))
            (hwords' adr' (.head _)) (Option.some.inj hadr)))
    | _ => cases h
  | transfer code buffer length =>
    cases b' with
    | transfer code' buffer' length' =>
      obtain ⟨rfl, hbuffer, hlength⟩ := Body.transfer.inj h
      exact .transfer
        (Operand.agrees_of_reduced_eq (hwords _ (.head _)) (hwords' _ (.head _)) hbuffer)
        (Operand.agrees_of_reduced_eq (hwords _ (.tail _ (.head _)))
          (hwords' _ (.tail _ (.head _))) hlength)
    | _ => cases h
  | data value =>
    cases b' with
    | data value' =>
      exact .data (Operand.agrees_of_reduced_eq (hwords _ (.head _)) (hwords' _ (.head _))
        (Body.data.inj h))
    | _ => cases h
  | start target => exact absurd rfl (hstart target)
  | finish =>
    cases b' with
    | finish => exact .finish
    | _ => cases h
  | labelOnly =>
    cases b' with
    | labelOnly => exact .labelOnly
    | _ => cases h

namespace Decoding

/-! ## The first word -/

/-- The code in the first word of an instruction. -/
def codeField (w : Word) : UInt8 := UInt8.ofNat (w.toNat / 256)

/-- The field of the first register. -/
def firstField (w : Word) : Nat := w.toNat / 16 % 16

/-- The field of the second register. -/
def secondField (w : Word) : Nat := w.toNat % 16

theorem registerField_lt (r : Option Register) : Body.registerField r < 16 := by
  cases r with
  | none => decide
  | some r => exact Nat.lt_trans r.number_lt (by decide)

/-- The fields of a first word do not overlap. -/
theorem fields_head (code : UInt8) (r1 r2 : Option Register) :
    codeField (Body.head code r1 r2) = code ∧
      firstField (Body.head code r1 r2) = Body.registerField r1 ∧
      secondField (Body.head code r1 r2) = Body.registerField r2 := by
  have hcode := code.toNat_lt
  have hfirst := registerField_lt r1
  have hsecond := registerField_lt r2
  have hhead : (Body.head code r1 r2).toNat =
      code.toNat * 256 + Body.registerField r1 * 16 + Body.registerField r2 := by
    rw [Body.head, UInt16.toNat_ofNat']
    exact Nat.mod_eq_of_lt (by omega)
  refine ⟨?_, ?_, ?_⟩
  · have hdiv : (Body.head code r1 r2).toNat / 256 = code.toNat := by omega
    rw [codeField, hdiv, UInt8.ofNat_toNat]
  · rw [firstField, hhead]
    omega
  · rw [secondField, hhead]
    omega

/-- What an operation code stands for. -/
structure Format where
  mnemonic : Mnemonic
  /-- Whether it is the code of the form with two registers. -/
  pair : Bool
  deriving DecidableEq, Repr

/-- The format of an operation code. -/
def format? (code : UInt8) : Option Format :=
  Mnemonic.table.findSome? fun m =>
    if m.code = some code then some ⟨m, false⟩
    else if m.shape = .registerOrAddress ∧ m.code.map Opcode.registerForm = some code then
      some ⟨m, true⟩
    else none

/-- No two rows of the instruction table have the same code. -/
theorem format?_opcode {m : Mnemonic} (hm : m ∈ Mnemonic.table) {code : UInt8}
    (hcode : m.code = some code) : format? code = some ⟨m, false⟩ := by
  have hall : ∀ m ∈ Mnemonic.table, ∀ code ∈ m.code, format? code = some ⟨m, false⟩ := by
    decide +kernel
  exact hall m hm code hcode

/-- No form with two registers has the code of another form. -/
theorem format?_registerForm {m : Mnemonic} (hm : m ∈ Mnemonic.table) {code : UInt8}
    (hcode : m.code = some code) (hshape : m.shape = .registerOrAddress) :
    format? (Opcode.registerForm code) = some ⟨m, true⟩ := by
  have hall : ∀ m ∈ Mnemonic.table, m.shape = .registerOrAddress → ∀ code ∈ m.code,
      format? (Opcode.registerForm code) = some ⟨m, true⟩ := by
    decide +kernel
  exact hall m hm hshape code hcode

/-! ## Instructions -/

/-- The index register in a field. -/
def index (n : Nat) : Option Register := if n = 0 then none else Register.ofNumber? n

/-- The operand in a word. -/
def operand (w : Word) : Operand := .resolved w.toNat

/-- The instruction that begins with a word of the given format, with the words after it. -/
def afterHead? (format : Format) (w : Word) (ws : List Word) :
    Option ((Mnemonic × Body) × List Word) :=
  let m := format.mnemonic
  let r1 := Register.ofNumber? (firstField w)
  let r2 := Register.ofNumber? (secondField w)
  let x := index (secondField w)
  match m.shape, format.pair, ws with
  | .none, _, ws => some ((m, .operation (codeField w) none none none), ws)
  | .register, _, ws => some ((m, .operation (codeField w) r1 none none), ws)
  | .address, _, adr :: ws =>
    some ((m, .operation (codeField w) none x (some (operand adr))), ws)
  | .registerAddress, _, adr :: ws | .registerOrAddress, false, adr :: ws =>
    some ((m, .operation (codeField w) r1 x (some (operand adr))), ws)
  | .registerOrAddress, true, ws => some ((m, .operation (codeField w) r1 r2 none), ws)
  | .buffer, _, buffer :: length :: ws =>
    some ((m, .transfer (codeField w) (operand buffer) (operand length)), ws)
  | _, _, _ => none

/-- The first instruction of machine code, with the words after it. -/
def instruction? : List Word → Option ((Mnemonic × Body) × List Word)
  | [] => none
  | w :: ws => (format? (codeField w)).bind fun format => afterHead? format w ws

theorem instruction?_head {code : UInt8} {format : Format} (h : format? code = some format)
    (r1 r2 : Option Register) (ws : List Word) :
    instruction? (Body.head code r1 r2 :: ws) = afterHead? format (Body.head code r1 r2) ws := by
  rw [instruction?, (fields_head code r1 r2).1, h]
  rfl

/-- The names of the directives, which are no operations. -/
def directives : List String := ["START", "END", "DS", "DC"]

/-- A row of the table that is no directive has a code. -/
theorem isOperation_of_not_mem {m : Mnemonic} (hm : m ∈ Mnemonic.table)
    (hname : m.name ∉ directives) :
    m.code ≠ none ∧ m.shape ≠ .entry ∧ m.shape ≠ .wordCount ∧ m.shape ≠ .constants := by
  have hall : ∀ m ∈ Mnemonic.table, m.name ∉ directives →
      m.code ≠ none ∧ m.shape ≠ .entry ∧ m.shape ≠ .wordCount ∧ m.shape ≠ .constants := by
    decide +kernel
  exact hall m hm hname

theorem index_registerField {x : Option Register} (h : x ≠ some .gr0) :
    index (Body.registerField x) = x := by
  cases x with
  | none => rfl
  | some r =>
    cases r with
    | gr0 => exact absurd rfl h
    | _ => rfl

theorem operand_ofValue (value : Int) :
    operand (Word.ofValue value) = (Operand.resolved value).reduced := by
  have hnonneg := Int.emod_nonneg value (show (65536 : Int) ≠ 0 by decide)
  have hlt := Int.emod_lt_of_pos value (show (0 : Int) < 65536 by decide)
  have hsize : (value % 65536).toNat % 65536 = (value % 65536).toNat :=
    Nat.mod_eq_of_lt (by omega)
  rw [operand, Word.ofValue, UInt16.toNat_ofNat', Operand.reduced]
  congr 1
  omega

/-- The words of numbers are decoded to the numbers. -/
theorem map_operand_of_mapM {operands : List Operand} (h : ∀ operand ∈ operands, operand.IsWord)
    {line : Nat} {us : List Word} (hus : operands.mapM (Operand.word line) = .ok us) :
    us.map operand = operands.map Operand.reduced := by
  replace hus := Traversal.mapM_eq_ok_iff.1 hus
  induction hus with
  | nil => rfl
  | cons hword _ ih =>
    obtain ⟨⟨value, rfl, hfits⟩, hrest⟩ := List.forall_mem_cons.1 h
    obtain ⟨-, rfl⟩ := Operand.word_resolved_eq_ok hword
    rw [List.map_cons, List.map_cons, operand_ofValue, ih hrest]

/-- The words of an operation are decoded to the operation, whatever follows them. -/
theorem instruction?_of_hasForm {m : Mnemonic} (hm : m ∈ Mnemonic.table)
    (hname : m.name ∉ directives) {b : Body} (hform : m.HasForm b) {us : List Word}
    (hus : us.map operand = b.operands.map Operand.reduced) (rest : List Word) :
    instruction? (b.headWords ++ us ++ rest) =
      some ((m, b.mapOperands Operand.reduced), rest) := by
  obtain ⟨hcode, hentry, hwordCount, hconstants⟩ := isOperation_of_not_mem hm hname
  have hnumber (r : Register) : Register.ofNumber? (Body.registerField (some r)) = some r :=
    r.ofNumber?_number
  cases hform with
  | bare shape opcode =>
    obtain rfl := List.map_eq_nil_iff.1 hus
    refine (instruction?_head (format?_opcode hm opcode) none none rest).trans ?_
    simp only [afterHead?, shape, fields_head, Body.mapOperands, Option.map_none]
  | register shape opcode =>
    obtain rfl := List.map_eq_nil_iff.1 hus
    refine (instruction?_head (format?_opcode hm opcode) _ _ rest).trans ?_
    simp only [afterHead?, shape, fields_head, hnumber, Body.mapOperands, Option.map_none]
  | address shape opcode hindex =>
    obtain ⟨u, rfl, hu⟩ := List.map_eq_singleton_iff.1 hus
    refine (instruction?_head (format?_opcode hm opcode) _ _ (u :: rest)).trans ?_
    simp only [afterHead?, shape, fields_head, index_registerField hindex, hu, Body.mapOperands,
      Option.map_some]
  | registerAddress shape opcode hindex =>
    obtain ⟨u, rfl, hu⟩ := List.map_eq_singleton_iff.1 hus
    refine (instruction?_head (format?_opcode hm opcode) _ _ (u :: rest)).trans ?_
    rcases shape with shape | shape <;>
      simp only [afterHead?, shape, fields_head, hnumber, index_registerField hindex, hu,
        Body.mapOperands, Option.map_some]
  | registers shape opcode =>
    obtain rfl := List.map_eq_nil_iff.1 hus
    refine (instruction?_head (format?_registerForm hm opcode shape) _ _ rest).trans ?_
    simp only [afterHead?, shape, fields_head, hnumber, Body.mapOperands, Option.map_none]
  | @transfer code buffer length shape opcode =>
    obtain ⟨u, v, rfl, hu, hv⟩ : ∃ u v, us = [u, v] ∧ operand u = buffer.reduced ∧
        operand v = length.reduced := by
      simpa [Body.operands, List.map_eq_cons_iff] using hus
    refine (instruction?_head (format?_opcode hm opcode) none none (u :: v :: rest)).trans ?_
    simp only [afterHead?, shape, fields_head, hu, hv, Body.mapOperands]
  | finish _ directive => exact absurd directive hcode
  | start shape => exact absurd shape hentry
  | labelOnly shape | filler shape => exact absurd shape hwordCount
  | data shape => exact absurd shape hconstants

/-! ## Programs -/

/-- A record of an operation as it was read, with numbers in the place of all operands. -/
structure IsOperation (q : Record) : Prop where
  source : ∃ r, Assembly.IsRead r ∧ r.IsFilled q
  operation : q.mnemonic ∉ directives
  operands : ∀ operand ∈ q.operands, operand.IsWord

/-- The words of a record are decoded to what the record does. -/
theorem IsOperation.instruction?_append {r : Record} (h : IsOperation r) {ws : List Word}
    (hws : r.words = .ok ws) (rest : List Word) :
    ∃ m, m.name = r.mnemonic ∧
      instruction? (ws ++ rest) = some ((m, r.body.mapOperands Operand.reduced), rest) := by
  obtain ⟨p, hread, hfilled⟩ := h.source
  obtain ⟨m, hm, hname, hform⟩ := (hfilled.wellFormed hread.wellFormed).form
  obtain ⟨us, hus, rfl⟩ := Record.words_eq_ok.1 hws
  exact ⟨m, hname, instruction?_of_hasForm hm (hname ▸ h.operation) hform
    (map_operand_of_mapM h.operands hus) rest⟩

theorem IsOperation.body_ne_start {r : Record} (h : IsOperation r) (target : Option Operand) :
    r.body ≠ .start target := by
  intro hbody
  obtain ⟨p, hread, hfilled⟩ := h.source
  obtain ⟨m, hm, hname, hform⟩ := (hfilled.wellFormed hread.wellFormed).form
  rw [hbody] at hform
  cases hform with
  | start shape => exact (isOperation_of_not_mem hm (hname ▸ h.operation)).2.1 shape

/-- The records do the same and have the same name. -/
def SameOperation (r q : Record) : Prop :=
  r.mnemonic = q.mnemonic ∧ r.body.Matches Operand.Agrees Operand.Agrees q.body

/-- Records at the beginning of the same code are the same, and so is the code after them. -/
theorem IsOperation.eq_of_append_eq {r q : Record} (hr : IsOperation r) (hq : IsOperation q)
    {u u' v v' : List Word} (hu : r.words = .ok u) (hu' : q.words = .ok u')
    (h : u ++ v = u' ++ v') : SameOperation r q ∧ v = v' := by
  obtain ⟨m, hname, hdecode⟩ := hr.instruction?_append hu v
  obtain ⟨m', hname', hdecode'⟩ := hq.instruction?_append hu' v'
  rw [h, hdecode', Option.some.injEq, Prod.mk.injEq, Prod.mk.injEq] at hdecode
  obtain ⟨⟨rfl, hbody⟩, rfl⟩ := hdecode
  have hmatches := Body.matches_of_reduced_eq hr.operands hq.operands hr.body_ne_start hbody.symm
  exact ⟨⟨hname.symm.trans hname', hmatches⟩, rfl⟩

theorem IsOperation.words_ne_nil {r : Record} (h : IsOperation r) {ws : List Word}
    (hws : r.words = .ok ws) : ws ≠ [] := by
  rintro rfl
  obtain ⟨m, -, hdecode⟩ := h.instruction?_append hws []
  cases hdecode

/-- Two programs of operations with the same machine code are of the same length, and their
records have the same names, codes and registers, and the same numbers modulo 65536. -/
theorem sameOperations_of_code_eq {rs qs : List Record} (hrs : ∀ r ∈ rs, IsOperation r)
    (hqs : ∀ q ∈ qs, IsOperation q) (h : Image.code rs = Image.code qs) :
    List.Forall₂ SameOperation rs qs := by
  obtain ⟨ws, hws⟩ := Image.exists_code fun r hr =>
    Record.exists_words_of_isWord (hrs r hr).operands
  rw [hws] at h
  replace h := h.symm
  induction rs generalizing qs ws with
  | nil =>
    obtain rfl := Image.code_nil_eq_ok.1 hws
    cases qs with
    | nil => exact .nil
    | cons q qs =>
      obtain ⟨u, v, hu, -, hempty⟩ := Image.code_cons_eq_ok.1 h
      have hne := (hqs q (.head _)).words_ne_nil hu
      exact absurd (List.append_eq_nil_iff.1 hempty.symm).1 hne
  | cons r rs ih =>
    obtain ⟨hr, hrest⟩ := List.forall_mem_cons.1 hrs
    obtain ⟨u, v, hu, hv, rfl⟩ := Image.code_cons_eq_ok.1 hws
    cases qs with
    | nil =>
      have hempty := Image.code_nil_eq_ok.1 h
      exact absurd (List.append_eq_nil_iff.1 hempty).1 (hr.words_ne_nil hu)
    | cons q qs =>
      obtain ⟨hq, hrest'⟩ := List.forall_mem_cons.1 hqs
      obtain ⟨u', v', hu', hv', happend⟩ := Image.code_cons_eq_ok.1 h
      obtain ⟨hsame, rfl⟩ := hr.eq_of_append_eq hq hu hu' happend
      exact .cons hsame (ih hrest hrest' v hv hv')

/-- An operation with the same number in the place of all operands. -/
def filled (value : Int) (r : Record) : Record := r.mapOperands fun _ => .resolved value

theorem isOperation_filled {r : Record} (hread : Assembly.IsRead r)
    (hmnemonic : r.mnemonic ∉ directives) {value : Int} (hfits : Word.fits value = true) :
    IsOperation (filled value r) where
  source := ⟨r, hread, Record.isFilled_mapOperands fun _ _ => .inr ⟨value, rfl, hfits⟩⟩
  operation := hmnemonic
  operands := by
    intro operand hoperand
    rw [filled, Record.operands_mapOperands] at hoperand
    obtain ⟨-, -, rfl⟩ := List.mem_map.1 hoperand
    exact ⟨value, rfl, hfits⟩

theorem sameOperations_store :
    ∃ r reading, Assembly.readLine false 0 " ST GR1,X,GR3" = .ok reading ∧ r ∈ reading.records ∧
      Image.code [filled 7 r, filled (-1) r] = .ok [0x1113, 7, 0x1113, 0xFFFF] ∧
      Image.code [filled 7 r, filled 65535 r] = .ok [0x1113, 7, 0x1113, 0xFFFF] ∧
      List.Forall₂ SameOperation [filled 7 r, filled (-1) r] [filled 7 r, filled 65535 r] := by
  have hfound : ∃ reading ∈ (Assembly.readLine false 0 " ST GR1,X,GR3").toOption,
      ∃ r ∈ reading.records, r.mnemonic ∉ directives ∧
      Image.code [filled 7 r, filled (-1) r] = .ok [0x1113, 7, 0x1113, 0xFFFF] ∧
      Image.code [filled 7 r, filled 65535 r] = .ok [0x1113, 7, 0x1113, 0xFFFF] := by
    decide +kernel
  obtain ⟨reading, hreading, r, hr, hmnemonic, hcode, hcode'⟩ := hfound
  have hread := Traversal.toOption_eq_some.1 hreading
  have hfilled {value : Int} (hfits : Word.fits value = true) : IsOperation (filled value r) :=
    isOperation_filled ⟨_, _, _, _, hread, hr⟩ hmnemonic hfits
  have hsame : List.Forall₂ SameOperation [filled 7 r, filled (-1) r]
      [filled 7 r, filled 65535 r] :=
    sameOperations_of_code_eq (by simpa using ⟨hfilled rfl, hfilled rfl⟩)
      (by simpa using ⟨hfilled rfl, hfilled rfl⟩) (hcode.trans hcode'.symm)
  exact ⟨r, reading, hread, hr, hcode, hcode', hsame⟩

end Decoding

end Comet
