import Comet.Proofs.RecordAgreement
import Comet.Proofs.Rescanning
import Comet.Record.Printer

/-!
# Reading printed records

A record is printed as a source line with the operands that it has at the time: numbers
as hexadecimal words, names and literals as they were written. Reading this line gives one
record that does the same. The number of a word is then the value of its digits, which
differs from the one before by a multiple of 65536, and places are those of the new line.

A record can be read back if its parts can be: a register has to be one that may be named,
and a literal has to be written as it was scanned. Records that come from a source line
have such parts (`isWritten_of_readLine`), and numbers in the place of operands do no harm.
The main result is `readLine_text`.
-/

namespace Comet

open Token (Piece piece)

/-! ## Parts that can be read back -/

namespace Token

variable {gr8 : Bool}

/-- A name that is not an instruction or a register is a label. -/
theorem isItem_name {name : String} (h : IsName name.toList) :
    (Piece.mk (.ofName gr8 name) name.toList).IsItem gr8 := by
  have halone : StandsAlone gr8 (.ofName gr8 (String.ofList name.toList)) name.toList :=
    standsAlone_name h
  rw [String.ofList_toList] at halone
  refine ⟨halone, ?_⟩
  rcases Kind.ofName_cases gr8 name with h | h | h <;> simp [h]

/-- The piece that writes a register. -/
def Piece.register (r : Register) : Piece := ⟨.register, r.name.toList⟩

theorem isItem_register {r : Register} (h : r.available gr8 = true) :
    (Piece.register r).IsItem gr8 := by
  have hkind : Kind.ofName gr8 r.name = .register := by
    revert h
    cases gr8 <;> cases r <;> decide
  rw [Piece.register, ← hkind]
  exact isItem_name (isName_register r)

theorem isRegister_of_piece {token : Token} {r : Register} (h : token.piece = .register r) :
    token.IsRegister r := by
  injection h with hkind htext
  exact ⟨hkind, String.toList_injective htext⟩

/-- The piece that writes an instruction. -/
def Piece.mnemonic (m : Mnemonic) : Piece := ⟨.mnemonic, m.name.toList⟩

theorem isItem_mnemonic {m : Mnemonic} (hm : m ∈ Mnemonic.table) :
    (Piece.mnemonic m).IsItem gr8 := by
  rw [Piece.mnemonic, ← Kind.ofName_mnemonic hm gr8]
  exact isItem_name (isName_mnemonic hm)

theorem ofName?_of_piece {token : Token} {m : Mnemonic} (hm : m ∈ Mnemonic.table)
    (h : token.piece = .mnemonic m) :
    token.kind = .mnemonic ∧ Mnemonic.ofName? token.text = some m := by
  injection h with hkind htext
  rw [String.toList_injective htext]
  exact ⟨hkind, Mnemonic.ofName?_name hm⟩

/-- A name of a label can stand wherever a label can. -/
theorem isSymbol_of_piece {token : Token} {name : String} (hname : IsLabelName name)
    (h : token.piece = ⟨.ofName gr8 name, name.toList⟩) : token.IsSymbol ∧ token.text = name := by
  injection h with hkind htext
  obtain rfl := String.toList_injective htext
  refine ⟨(Statement.Line.isSymbol_iff ?_).2 hname.unreserved, rfl⟩
  have hregister : Register.ofName? token.text = none := by
    simpa [Register.isName] using hname.unreserved
  rw [hkind, Kind.ofName, hregister]
  split <;> simp

end Token

/-- A literal that is written as a token of its kind, which stands for its words. -/
def Literal.IsWritten (gr8 : Bool) (l : Literal) : Prop :=
  ∃ form cs, l.text.toList = '=' :: cs ∧ Token.WritesConstant form cs l.words ∧
    Token.StandsAlone gr8 (.literal form) l.text.toList

namespace Operand

/-- The text of the operand is an item, and a token that has this text stands for an equal
operand. What a token stands for depends on where it is used. -/
def ReadsBack (gr8 : Bool) (Writes : Token → Operand → Prop) (operand : Operand) : Prop :=
  ∃ kind, (Piece.mk kind operand.text.toList).IsItem gr8 ∧
    ∀ token : Token, token.piece = ⟨kind, operand.text.toList⟩ →
      ∃ operand', Writes token operand' ∧ operand.Agrees operand'

variable {gr8 : Bool} {Writes : Token → Operand → Prop}

theorem readsBack_symbol {name : String} (h : IsLabelName name) (span : Span)
    (hwrites : ∀ token : Token, token.IsSymbol → Writes token (.symbol token.text token.span)) :
    (symbol name span).ReadsBack gr8 Writes := by
  refine ⟨_, Token.isItem_name h.spelled, fun token htoken => ?_⟩
  obtain ⟨hsymbol, rfl⟩ := Token.isSymbol_of_piece h htoken
  exact ⟨_, hwrites token hsymbol, rfl⟩

/-- A number is written as the word that it is stored in, and read as the number of the
word. -/
theorem readsBack_resolved (value : Int)
    (hwrites : ∀ (token : Token) (value : Int), token.kind = .constant .hex →
      Token.WritesConstant .hex token.text.toList [value] → Writes token (.resolved value)) :
    (resolved value).ReadsBack gr8 Writes := by
  have htext : (resolved value).text.toList = '#' :: (Word.ofValue value).hex :=
    String.toList_ofList
  have hlt : (Word.ofValue value).toNat < 65536 := UInt16.toNat_lt _
  refine ⟨.constant .hex, ⟨?_, by simp⟩, fun token htoken => ?_⟩
  · rw [htext]
    exact Token.standsAlone_hex (by simp [Word.hex, Text.Numeral.hex4])
      (Text.Numeral.isHexDigit_hex4 _)
  · injection htoken with hkind hdigits
    rw [htext] at hdigits
    have hnumber := Text.Numeral.value?_hex4 hlt
    refine ⟨.resolved (Word.ofValue value).toNat, hwrites token _ hkind ?_, ?_⟩
    · rw [hdigits]
      exact .number (by simp) hnumber (by omega) (by omega)
    · show value % 65536 = ((Word.ofValue value).toNat : Int) % 65536
      rw [Word.ofValue, UInt16.toNat_ofNat']
      omega

theorem readsBack_literal {l : Literal} (h : l.IsWritten gr8) (span : Span) :
    (literal l span).ReadsBack gr8 Token.WritesAddress := by
  obtain ⟨form, cs, htext, hwrites, halone⟩ := h
  refine ⟨.literal form, ⟨halone, by simp⟩, fun token htoken => ?_⟩
  injection htoken with hkind htoken
  have haddress : token.WritesAddress (.literal ⟨token.text, l.words⟩ token.span) :=
    .literal hkind (htoken.trans htext) hwrites
  refine ⟨_, haddress, ?_⟩
  rw [String.toList_injective htoken]
  rfl

theorem readsBack_address {operand : Operand} (hwf : operand.WellFormed)
    (hliteral : ∀ l span, operand = .literal l span → l.IsWritten gr8) :
    operand.ReadsBack gr8 Token.WritesAddress := by
  cases operand with
  | resolved value =>
    exact readsBack_resolved value fun token value hkind hwrites =>
      .number hkind (by simp) hwrites
  | symbol name span => exact readsBack_symbol hwf span fun token hsymbol => .symbol hsymbol
  | literal l span => exact readsBack_literal (hliteral l span rfl) span

theorem readsBack_data {operand : Operand} (hwf : operand.WellFormed)
    (hliteral : ∀ l span, operand ≠ .literal l span) :
    operand.ReadsBack gr8 fun token operand' => token.WritesData [operand'] := by
  cases operand with
  | resolved value =>
    exact readsBack_resolved value fun token value hkind hwrites => .constant hkind hwrites
  | symbol name span => exact readsBack_symbol hwf span fun token hsymbol => .symbol hsymbol
  | literal l span => exact absurd rfl (hliteral l span)

end Operand

/-! ## Operands that can be read back -/

/-- The registers that a body names. -/
def Body.registers : Body → List Register
  | operation _ r1 r2 _ => r1.toList ++ r2.toList
  | _ => []

theorem Body.Matches.registers_eq {R S : Operand → Operand → Prop} {b b' : Body}
    (h : b.Matches R S b') : b'.registers = b.registers := by
  cases h <;> rfl

/-- The registers may be named, the literals are written as they were scanned, and data is
no literal. -/
structure Body.IsWritten (gr8 : Bool) (b : Body) : Prop where
  registers : ∀ x ∈ b.registers, x.available gr8 = true
  literals : ∀ l span, .literal l span ∈ b.operands → l.IsWritten gr8
  data : ∀ l span, b ≠ .data (.literal l span)

namespace Statement

open Token.Piece (join comma)

/-- The operands of a body, as they are printed, are those of a body that does the same. -/
inductive PrintsOperands (gr8 : Bool) (m : Mnemonic) (b : Body) : Prop
  | bare (n : Nat) {operands : Operands} {b' : Body}
      (text : b.operandText.toList = List.replicate n ' ')
      (isOperandList : IsOperandList m [] operands) (hasBodies : HasBodies m operands [b'])
      (agrees : b.Matches Operand.Agrees Operand.Agrees b')
  | items (pieces : List Piece) (nonempty : pieces ≠ [])
      (text : b.operandText.toList = ' ' :: join (pieces.intersperse comma))
      (isItem : ∀ p ∈ pieces, p.IsItem gr8)
      (reads : ∀ (space : Token) (tokens : List Token), space.kind = .space →
        tokens.map piece = pieces.intersperse comma →
        ∃ operands b', IsOperandList m (space :: tokens) operands ∧ HasBodies m operands [b'] ∧
          b.Matches Operand.Agrees Operand.Agrees b')

theorem join_intersperse (pieces : List Piece) :
    join (pieces.intersperse comma) = [','].intercalate (pieces.map Piece.text) := by
  induction pieces with
  | nil => rfl
  | cons p pieces ih =>
    cases pieces with
    | nil => simp
    | cons q pieces =>
      rw [List.intersperse_cons_cons, Token.Piece.join_cons, Token.Piece.join_cons, ih]
      simp [comma]

theorem toList_operandText_operation {code : UInt8} {r1 r2 : Option Register}
    {adr : Option Operand} (pieces : List Piece)
    (h : pieces.map Piece.text = (r1.toList.map Register.name ++ adr.toList.map Operand.text ++
      r2.toList.map Register.name).map String.toList) :
    (Body.operation code r1 r2 adr).operandText.toList =
      ' ' :: join (pieces.intersperse comma) := by
  rw [join_intersperse, h, Body.operandText, String.toList_append, String.toList_intercalate]
  rfl

variable {gr8 : Bool} {m : Mnemonic} {b : Body}

theorem exists_pair {p p' : Piece} {tokens : List Token}
    (h : tokens.map piece = [p, p'].intersperse comma) :
    ∃ first separator second, tokens = [first, separator, second] ∧ first.piece = p ∧
      separator.kind = .comma ∧ second.piece = p' := by
  obtain ⟨first, rest, rfl, hfirst, hrest⟩ := List.map_eq_cons_iff.1 h
  obtain ⟨separator, rest, rfl, hseparator, hrest⟩ := List.map_eq_cons_iff.1 hrest
  obtain ⟨second, rfl, hsecond⟩ := List.map_eq_singleton_iff.1 hrest
  exact ⟨first, separator, second, rfl, hfirst, congrArg Piece.kind hseparator, hsecond⟩

/-- An address and the index register that may follow it. -/
theorem exists_indexed {p : Piece} {x : Option Register} (hx : x ≠ some .gr0)
    {tokens : List Token}
    (h : tokens.map piece = (p :: x.toList.map Piece.register).intersperse comma) :
    ∃ token front, tokens = token :: front ∧ token.piece = p ∧ IsIndex front x := by
  cases x with
  | none =>
    obtain ⟨token, rfl, htoken⟩ := List.map_eq_singleton_iff.1 h
    exact ⟨token, [], rfl, htoken, .absent⟩
  | some r =>
    obtain ⟨token, separator, index, rfl, htoken, hseparator, hindex⟩ := exists_pair h
    exact ⟨token, [separator, index], rfl, htoken,
      .present hseparator (Token.isRegister_of_piece hindex) fun h => hx (congrArg some h)⟩

section Forms

variable {code : UInt8} {r r1 r2 : Register} {x : Option Register} {adr adr' : Operand}

theorem printsOperands_register (shape : m.shape = .register) (opcode : m.code = some code)
    (hr : (Piece.register r).IsItem gr8) :
    PrintsOperands gr8 m (.operation code (some r) none none) := by
  refine .items [.register r] (by simp) (toList_operandText_operation _ rfl) (by simpa using hr) ?_
  intro space tokens hspace htokens
  obtain ⟨token, rfl, htoken⟩ := List.map_eq_singleton_iff.1 htokens
  exact ⟨_, _, .register shape hspace (Token.isRegister_of_piece htoken), .register opcode,
    .operation .none⟩

theorem printsOperands_address (shape : m.shape = .address) (opcode : m.code = some code)
    (index : x ≠ some .gr0) (hadr : adr.ReadsBack gr8 Token.WritesAddress)
    (hx : ∀ r ∈ x.toList, (Piece.register r).IsItem gr8) :
    PrintsOperands gr8 m (.operation code none x (some adr)) := by
  obtain ⟨kind, hitem, hreads⟩ := hadr
  refine .items (⟨kind, adr.text.toList⟩ :: x.toList.map .register) (by simp)
    (toList_operandText_operation _ (by simp [Token.Piece.register])) ?_ ?_
  · rw [List.forall_mem_cons, List.forall_mem_map]
    exact ⟨hitem, hx⟩
  · intro space tokens hspace htokens
    obtain ⟨token, front, rfl, htoken, hindex⟩ := exists_indexed index htokens
    obtain ⟨adr', hwrites, hagrees⟩ := hreads token htoken
    exact ⟨_, _, .address shape hspace hwrites hindex, .address opcode,
      .operation (.some hagrees)⟩

theorem printsOperands_registerAddress
    (shape : m.shape = .registerAddress ∨ m.shape = .registerOrAddress)
    (opcode : m.code = some code) (index : x ≠ some .gr0) (hr : (Piece.register r).IsItem gr8)
    (hadr : adr.ReadsBack gr8 Token.WritesAddress)
    (hx : ∀ r ∈ x.toList, (Piece.register r).IsItem gr8) :
    PrintsOperands gr8 m (.operation code (some r) x (some adr)) := by
  obtain ⟨kind, hitem, hreads⟩ := hadr
  refine .items (.register r :: ⟨kind, adr.text.toList⟩ :: x.toList.map .register) (by simp)
    (toList_operandText_operation _ (by simp [Token.Piece.register])) ?_ ?_
  · rw [List.forall_mem_cons, List.forall_mem_cons, List.forall_mem_map]
    exact ⟨hr, hitem, hx⟩
  · intro space tokens hspace htokens
    obtain ⟨first, rest, rfl, hfirst, hrest⟩ := List.map_eq_cons_iff.1 htokens
    obtain ⟨separator, rest, rfl, hseparator, hrest⟩ := List.map_eq_cons_iff.1 hrest
    obtain ⟨token, front, rfl, htoken, hindex⟩ := exists_indexed index hrest
    obtain ⟨adr', hwrites, hagrees⟩ := hreads token htoken
    exact ⟨_, _, .registerAddress shape hspace (Token.isRegister_of_piece hfirst)
      (congrArg Piece.kind hseparator) hwrites hindex, .registerAddress opcode,
      .operation (.some hagrees)⟩

theorem printsOperands_registers (shape : m.shape = .registerOrAddress)
    (opcode : m.code = some code) (hr1 : (Piece.register r1).IsItem gr8)
    (hr2 : (Piece.register r2).IsItem gr8) :
    PrintsOperands gr8 m (.operation (Opcode.registerForm code) (some r1) (some r2) none) := by
  refine .items [.register r1, .register r2] (by simp) (toList_operandText_operation _ rfl)
    (by simpa using ⟨hr1, hr2⟩) ?_
  intro space tokens hspace htokens
  obtain ⟨first, separator, second, rfl, hfirst, hseparator, hsecond⟩ := exists_pair htokens
  exact ⟨_, _, .registers shape hspace (Token.isRegister_of_piece hfirst)
    hseparator (Token.isRegister_of_piece hsecond), .registers opcode, .operation .none⟩

theorem printsOperands_transfer (shape : m.shape = .buffer) (opcode : m.code = some code)
    (hadr : adr.ReadsBack gr8 Token.WritesAddress)
    (hadr' : adr'.ReadsBack gr8 Token.WritesAddress) :
    PrintsOperands gr8 m (.transfer code adr adr') := by
  obtain ⟨kind, hitem, hreads⟩ := hadr
  obtain ⟨kind', hitem', hreads'⟩ := hadr'
  refine .items [⟨kind, adr.text.toList⟩, ⟨kind', adr'.text.toList⟩] (by simp)
    (by simp [Body.operandText, comma]) (by simpa using ⟨hitem, hitem'⟩) ?_
  intro space tokens hspace htokens
  obtain ⟨first, separator, second, rfl, hfirst, hseparator, hsecond⟩ := exists_pair htokens
  obtain ⟨buffer, hwrites, hagrees⟩ := hreads first hfirst
  obtain ⟨length, hwrites', hagrees'⟩ := hreads' second hsecond
  exact ⟨_, _, .buffer shape hspace hwrites hseparator hwrites', .transfer opcode,
    .transfer hagrees hagrees'⟩

theorem printsOperands_entry (shape : m.shape = .entry) {name : String} (hname : IsLabelName name)
    (span : Span) : PrintsOperands gr8 m (.start (some (.symbol name span))) := by
  refine .items [⟨.ofName gr8 name, name.toList⟩] (by simp)
    (by simp [Body.operandText, Operand.text])
    (by simpa using Token.isItem_name hname.spelled) ?_
  intro space tokens hspace htokens
  obtain ⟨token, rfl, htoken⟩ := List.map_eq_singleton_iff.1 htokens
  obtain ⟨hsymbol, rfl⟩ := Token.isSymbol_of_piece hname htoken
  exact ⟨_, _, .entry shape hspace hsymbol, .start, .start (.some rfl)⟩

theorem printsOperands_data (shape : m.shape = .constants) {value : Operand}
    (hvalue : value.ReadsBack gr8 fun token value' => token.WritesData [value']) :
    PrintsOperands gr8 m (.data value) := by
  obtain ⟨kind, hitem, hreads⟩ := hvalue
  refine .items [⟨kind, value.text.toList⟩] (by simp) (by simp [Body.operandText])
    (by simpa using hitem) ?_
  intro space tokens hspace htokens
  obtain ⟨token, rfl, htoken⟩ := List.map_eq_singleton_iff.1 htokens
  obtain ⟨value', hwrites, hagrees⟩ := hreads token htoken
  exact ⟨_, _, .constants shape hspace (.last hwrites), .data, .data hagrees⟩

end Forms

/-- What a record prints after its mnemonic can be read. -/
theorem printsOperands_of_isWritten (h : m.HasForm b) (hwritten : b.IsWritten gr8)
    (hoperands : ∀ operand ∈ b.operands, operand.WellFormed)
    (hentry : ∀ target, b = .start (some target) →
      ∃ name span, target = .symbol name span ∧ IsLabelName name)
    (hshape : m.shape ≠ .wordCount) : PrintsOperands gr8 m b := by
  have haddress {adr : Operand} (h : adr ∈ b.operands) : adr.ReadsBack gr8 Token.WritesAddress :=
    Operand.readsBack_address (hoperands adr h) fun l span heq =>
      hwritten.literals l span (heq ▸ h)
  have hregister {x : Register} (h : x ∈ b.registers) : (Piece.register x).IsItem gr8 :=
    Token.isItem_register (hwritten.registers x h)
  cases h with
  | bare shape opcode =>
    exact .bare 1 (toList_operandText_operation [] rfl) (.none shape) (.operation opcode)
      (.operation .none)
  | finish shape opcode => exact .bare 0 rfl (.none shape) (.finish opcode) .finish
  | register shape opcode => exact printsOperands_register shape opcode (hregister (.head _))
  | address shape opcode index =>
    exact printsOperands_address shape opcode index (haddress (.head _)) fun r hr => hregister hr
  | registerAddress shape opcode index =>
    exact printsOperands_registerAddress shape opcode index (hregister (.head _))
      (haddress (.head _)) fun r hr => hregister (.tail _ hr)
  | registers shape opcode =>
    exact printsOperands_registers shape opcode (hregister (.head _))
      (hregister (.tail _ (.head _)))
  | transfer shape opcode =>
    exact printsOperands_transfer shape opcode (haddress (.head _))
      (haddress (.tail _ (.head _)))
  | @start target shape =>
    cases target with
    | none => exact .bare 0 rfl (.noEntry shape) .start (.start .none)
    | some target =>
      obtain ⟨name, span, rfl, hname⟩ := hentry target rfl
      exact printsOperands_entry shape hname span
  | labelOnly shape | filler shape => exact absurd shape hshape
  | @data value shape =>
    exact printsOperands_data shape (Operand.readsBack_data (hoperands value (.head _))
      fun l span heq => hwritten.data l span (heq ▸ rfl))

/-! ## Lines that can be read back -/

open Token.Piece (Divides blanks)

/-- What a record prints before its mnemonic is the head of a line. -/
theorem exists_headPieces (gr8 : Bool) {label : Option String}
    (h : ∀ name ∈ label, IsLabelName name) :
    ∃ pieces, (Text.alignLeft 8 (label.getD "") ++ " ").toList = join pieces ∧
      (∀ rest, Divides gr8 rest → (∀ c ∈ (join rest).head?, Text.isBlank c = false) →
        Divides gr8 (pieces ++ rest)) ∧
      ∀ tokens : List Token, tokens.map piece = pieces → IsHead tokens label ∧ tokens ≠ [] := by
  cases label with
  | none =>
    refine ⟨[blanks 9], rfl, fun rest hrest hblank => hrest.blanks 8 hblank, ?_⟩
    intro tokens htokens
    obtain ⟨space, rfl, hspace⟩ := List.map_eq_singleton_iff.1 htokens
    exact ⟨.blank (congrArg Piece.kind hspace), by simp⟩
  | some name =>
    have hname := h name rfl
    refine ⟨[⟨.ofName gr8 name, name.toList⟩, blanks (8 - name.length + 1)], ?_, ?_, ?_⟩
    · simp [Text.alignLeft, Text.padding, blanks, List.replicate_succ']
    · intro rest hrest hblank
      exact (Token.isItem_name hname.spelled).divides (hrest.blanks _ hblank) rfl
    · intro tokens htokens
      obtain ⟨token, rest, rfl, htoken, hrest⟩ := List.map_eq_cons_iff.1 htokens
      obtain ⟨space, rfl, hspace⟩ := List.map_eq_singleton_iff.1 hrest
      obtain ⟨hsymbol, rfl⟩ := Token.isSymbol_of_piece hname htoken
      exact ⟨.label hsymbol (congrArg Piece.kind hspace), by simp⟩

/-- What a record prints after its mnemonic is a list of operands and the end of a line. -/
theorem exists_tailPieces (h : PrintsOperands gr8 m b) (hm : m ∈ Mnemonic.table) :
    ∃ pieces, (Text.padding 5 m.name ++ b.operandText).toList = join pieces ∧
      Divides gr8 (.mnemonic m :: pieces) ∧
      ∀ (tokens : List Token) (stop : Token), tokens.map piece = pieces → stop.kind = .endOfLine →
        ∃ operandTokens trailer operands b', tokens ++ [stop] = operandTokens ++ trailer ∧
          IsOperandList m operandTokens operands ∧ IsTrailer trailer ∧
          HasBodies m operands [b'] ∧ b.Matches Operand.Agrees Operand.Agrees b' := by
  have hitem : (Piece.mnemonic m).IsItem gr8 := Token.isItem_mnemonic hm
  cases h with
  | @bare n operands b' text isOperandList hasBodies agrees =>
    have htext : (Text.padding 5 m.name ++ b.operandText).toList =
        List.replicate (5 - m.name.length + n) ' ' := by
      rw [String.toList_append, text, Text.padding, String.toList_ofList,
        List.replicate_append_replicate]
    rw [htext]
    cases 5 - m.name.length + n with
    | zero =>
      refine ⟨[], rfl, hitem.divides .nil rfl, ?_⟩
      intro tokens stop htokens hstop
      obtain rfl := List.map_eq_nil_iff.1 htokens
      exact ⟨[], [stop], operands, b', rfl, isOperandList,
        @IsTrailer.mk none none stop (by simp) (by simp) hstop, hasBodies, agrees⟩
    | succ k =>
      have hdivides : Divides gr8 [blanks (k + 1)] := Divides.nil.blanks k (by simp)
      refine ⟨[blanks (k + 1)], by simp [blanks], hitem.divides hdivides rfl, ?_⟩
      intro tokens stop htokens hstop
      obtain ⟨space, rfl, hspace⟩ := List.map_eq_singleton_iff.1 htokens
      have hkind : ∀ t ∈ some space, t.kind = .space := by
        rintro _ ⟨⟩
        exact congrArg Piece.kind hspace
      exact ⟨[], [space, stop], operands, b', rfl, isOperandList,
        @IsTrailer.mk (some space) none stop hkind (by simp) hstop, hasBodies, agrees⟩
  | items pieces nonempty text isItem reads =>
    refine ⟨blanks (5 - m.name.length + 1) :: pieces.intersperse comma, ?_, ?_, ?_⟩
    · rw [String.toList_append, text]
      simp [Text.padding, blanks, List.replicate_succ']
    · have hblank := Token.Piece.isBlank_intersperse isItem
      exact hitem.divides ((Token.Piece.divides_intersperse isItem).blanks _ hblank) rfl
    · intro tokens stop htokens hstop
      obtain ⟨space, rest, rfl, hspace, hrest⟩ := List.map_eq_cons_iff.1 htokens
      obtain ⟨operands, b', hoperands, hbodies, hagrees⟩ :=
        reads space rest (congrArg Piece.kind hspace) hrest
      exact ⟨space :: rest, [stop], operands, b', rfl, hoperands,
        @IsTrailer.mk none none stop (by simp) (by simp) hstop, hbodies, hagrees⟩

end Statement

namespace Assembly

open Statement (IsLine)

variable {gr8 : Bool} {q : Record}

theorem readLine_of_isLine {number : Nat} {source : String} {tokens : List Token}
    (hscan : Token.scan gr8 number source = .ok tokens) {s : Statement} (h : IsLine tokens s)
    {bodies : List Body} (hbodies : Statement.HasBodies s.mnemonic s.operands bodies) :
    readLine gr8 number source = .ok ⟨s.recordsOf number tokens bodies, []⟩ := by
  have hspelled : Statement.AllSpelled gr8 tokens := Token.spelled_of_scan hscan
  obtain ⟨rest, hs, hend⟩ :=
    Statement.statement_of_isLine hspelled (Statement.Line.ofTokens number tokens) h
  rw [readLine_eq, readNonblank, hscan]
  exact Statement.read_of_statement hspelled hs (Statement.atEnd_of_isLine h) hend hbodies

/-- A record that can be written is read back. -/
theorem exists_readLine_text (hq : q.WellFormed) (hwritten : q.body.IsWritten gr8)
    (hmnemonic : q.mnemonic ≠ "DS") (number : Nat) :
    ∃ r, readLine gr8 number q.text = .ok ⟨[r], []⟩ ∧ r.label = q.label ∧
      r.mnemonic = q.mnemonic ∧ r.line = number ∧
      q.body.Matches Operand.Agrees Operand.Agrees r.body := by
  obtain ⟨m, hm, hname, hform⟩ := hq.form
  have hshape : m.shape ≠ .wordCount := by
    obtain ⟨-, -, hwordCount, -⟩ := Mnemonic.shape_iff_name hm
    exact fun h => hmnemonic (hname ▸ hwordCount.1 h)
  have hprints :=
    Statement.printsOperands_of_isWritten hform hwritten hq.operands hq.entry hshape
  obtain ⟨head, hheadText, hheadDivides, hhead⟩ := Statement.exists_headPieces gr8 hq.label
  obtain ⟨tail, htailText, htailDivides, htail⟩ := Statement.exists_tailPieces hprints hm
  have htext : q.text.toList = Piece.join (head ++ .mnemonic m :: tail) := by
    rw [String.toList_append] at htailText
    rw [Record.text, ← hname, String.toList_append, String.toList_append, hheadText, Text.alignLeft,
      String.toList_append, List.append_assoc, List.append_assoc, htailText, Piece.join_append,
      Piece.join_cons]
    rfl
  have hitem : (Piece.mnemonic m).IsItem gr8 := Token.isItem_mnemonic hm
  obtain ⟨tokens, stop, hscan, htokens, hstop⟩ := Piece.exists_scanFrom_of_divides
    (hheadDivides _ htailDivides (hitem.isBlank_eq_false tail)) number 0
  obtain ⟨headTokens, rest, rfl, hheadTokens, hrest⟩ := List.map_eq_append_iff.1 htokens
  obtain ⟨token, tailTokens, rfl, htoken, htailTokens⟩ := List.map_eq_cons_iff.1 hrest
  obtain ⟨isHead, hne⟩ := hhead headTokens hheadTokens
  obtain ⟨kind, row⟩ := Token.ofName?_of_piece hm htoken
  obtain ⟨operandTokens, trailer, operands, b', heq, isOperandList, isTrailer, hbodies, hagrees⟩ :=
    htail tailTokens stop htailTokens hstop
  have hline : IsLine (headTokens ++ token :: (operandTokens ++ trailer)) ⟨q.label, m, operands⟩ :=
    .mk isHead kind row isOperandList isTrailer fun hnil => absurd hnil hne
  rw [List.append_assoc, List.cons_append, heq, ← htext] at hscan
  have hscan' : Token.scan gr8 number q.text =
      .ok (headTokens ++ token :: (operandTokens ++ trailer)) :=
    Token.scan_eq_ok_iff.2 hscan
  exact ⟨_, readLine_of_isLine hscan' hline hbodies, rfl, hname, rfl, hagrees⟩

end Assembly

/-! ## Records that come from a line -/

theorem Token.WritesAddress.isWritten {gr8 : Bool} {token : Token} {l : Literal} {span : Span}
    (h : token.WritesAddress (.literal l span))
    (halone : ∀ form, token.kind = .literal form →
      Token.StandsAlone gr8 token.kind token.text.toList) : l.IsWritten gr8 := by
  cases h with
  | @literal form cs words kind text constant =>
    exact ⟨form, cs, text, constant, kind ▸ halone form kind⟩

theorem Token.IsSpelled.available {gr8 : Bool} {token : Token} (h : token.IsSpelled gr8)
    {r : Register} (hr : token.IsRegister r) : r.available gr8 = true := by
  rw [IsSpelled, hr.kind, hr.name] at h
  cases h with
  | name _ kind_eq =>
    rw [String.ofList_toList, Kind.ofName] at kind_eq
    split at kind_eq
    · cases kind_eq
    split at kind_eq
    · rename_i havailable
      simpa using havailable
    · cases kind_eq

namespace Statement

/-- The registers that an instruction names. -/
def Operands.registerList : Operands → List Register
  | .register r => [r]
  | .address _ x => x.toList
  | .registerAddress r _ x => r :: x.toList
  | .registers r1 r2 => [r1, r2]
  | _ => []

variable {m : Mnemonic} {operands : Operands} {bodies : List Body} {tokens : List Token}

/-- The records of a statement have its registers. -/
theorem HasBodies.registers_eq (h : HasBodies m operands bodies) :
    bodies.flatMap Body.registers = operands.registerList := by
  cases h with
  | @fillers count =>
    refine List.flatMap_eq_nil_iff.2 fun b hb => ?_
    rw [List.eq_of_mem_replicate hb]
    rfl
  | @data words =>
    rw [List.flatMap_map]
    exact List.flatMap_eq_nil_iff.2 fun word _ => rfl
  | address | registerAddress => exact List.append_nil _
  | _ => rfl

theorem HasBodies.exists_constants (h : HasBodies m operands bodies) {value : Operand}
    (hvalue : .data value ∈ bodies) : ∃ words, operands = .constants words ∧ value ∈ words := by
  cases h with
  | @data words =>
    obtain ⟨word, hword, heq⟩ := List.mem_map.1 hvalue
    cases heq
    exact ⟨words, rfl, hword⟩
  | fillers => cases List.eq_of_mem_replicate hvalue
  | _ => cases List.mem_singleton.1 hvalue

theorem IsIndex.exists_register {x : Option Register} (h : IsIndex tokens x) {r : Register}
    (hr : r ∈ x.toList) : ∃ t ∈ tokens, t.IsRegister r := by
  cases h with
  | absent => cases hr
  | present _ register =>
    obtain rfl := List.mem_singleton.1 hr
    exact ⟨_, .tail _ (.head _), register⟩

/-- The registers of an instruction are named by its tokens. -/
theorem IsOperandList.exists_register (h : IsOperandList m tokens operands) {r : Register}
    (hr : r ∈ operands.registerList) : ∃ t ∈ tokens, t.IsRegister r := by
  cases h with
  | register _ _ register =>
    obtain rfl := List.mem_singleton.1 hr
    exact ⟨_, by simp, register⟩
  | address _ _ _ index =>
    obtain ⟨t, ht, hregister⟩ := index.exists_register hr
    exact ⟨t, by simp [ht], hregister⟩
  | registerAddress _ _ register _ _ index =>
    rcases List.mem_cons.1 hr with rfl | hr
    · exact ⟨_, by simp, register⟩
    · obtain ⟨t, ht, hregister⟩ := index.exists_register hr
      exact ⟨t, by simp [ht], hregister⟩
  | registers _ _ register _ register' =>
    rcases List.mem_cons.1 hr with rfl | hr
    · exact ⟨_, by simp, register⟩
    · obtain rfl := List.mem_singleton.1 hr
      exact ⟨_, by simp, register'⟩
  | none | buffer | noEntry | entry | wordCount | constants => cases hr

/-- Data words are numbers and names. -/
theorem ne_literal_of_isConstantList {words : List Operand} (h : IsConstantList tokens words)
    (l : Literal) (span : Span) : ∀ word ∈ words, word ≠ .literal l span := by
  have hdata {token : Token} {words : List Operand} (h : token.WritesData words) :
      ∀ word ∈ words, word ≠ .literal l span := by
    cases h with
    | constant kind constant => simp
    | symbol symbol => simp
  induction h with
  | last data => exact hdata data
  | more data separator _ ih => exact List.forall_mem_append.2 ⟨hdata data, ih⟩

/-- The literals of an instruction are tokens that stand for an address. -/
theorem IsOperandList.exists_literal (h : IsOperandList m tokens operands) {l : Literal}
    {span : Span} (hl : .literal l span ∈ operands.emitted) :
    ∃ t ∈ tokens, t.WritesAddress (.literal l span) := by
  cases h with
  | address _ _ address | registerAddress _ _ _ _ address =>
    obtain rfl := List.mem_singleton.1 hl
    exact ⟨_, by simp, address⟩
  | buffer _ _ address _ address' =>
    rcases List.mem_cons.1 hl with rfl | hl
    · exact ⟨_, by simp, address⟩
    · obtain rfl := List.mem_singleton.1 hl
      exact ⟨_, by simp, address'⟩
  | constants _ _ constants =>
    exact absurd rfl (ne_literal_of_isConstantList constants l span _ hl)
  | none | register | registers | noEntry | entry | wordCount => cases hl

/-- The bodies of a statement are written as its tokens are. -/
theorem isWritten_of_isOperandList {gr8 : Bool} {b : Body} (h : IsOperandList m tokens operands)
    (hbodies : HasBodies m operands bodies) (hb : b ∈ bodies) (hspelled : AllSpelled gr8 tokens)
    (halone : ∀ t ∈ tokens, ∀ form, t.kind = .literal form →
      Token.StandsAlone gr8 t.kind t.text.toList) : b.IsWritten gr8 := by
  refine ⟨fun r hr => ?_, fun l span hl => ?_, ?_⟩
  · have hmem : r ∈ operands.registerList := hbodies.registers_eq ▸ List.mem_flatMap.2 ⟨b, hb, hr⟩
    obtain ⟨t, ht, hregister⟩ := h.exists_register hmem
    exact (hspelled t ht).available hregister
  · have hmem : .literal l span ∈ operands.emitted :=
      hbodies.operands_eq ▸ List.mem_flatMap.2 ⟨b, hb, hl⟩
    obtain ⟨t, ht, haddress⟩ := h.exists_literal hmem
    exact haddress.isWritten (halone t ht)
  · rintro l span rfl
    obtain ⟨words, rfl, hword⟩ := hbodies.exists_constants hb
    cases h with
    | constants _ _ constants =>
      exact ne_literal_of_isConstantList constants l span _ hword rfl

end Statement

namespace Assembly

variable {gr8 : Bool}

/-- The records of a line are written as its tokens are. -/
theorem isWritten_of_readLine {number : Nat} {line : String} {reading : Statement.Reading}
    (h : readLine gr8 number line = .ok reading) {r : Record} (hr : r ∈ reading.records) :
    r.WellFormed ∧ r.body.IsWritten gr8 := by
  have hwf : r.WellFormed := by
    obtain ⟨reading', h', hall⟩ := exists_readLine gr8 number line
    cases h.symm.trans h'
    exact hall r hr
  refine ⟨hwf, ?_⟩
  rw [readLine_eq, readNonblank] at h
  split at h
  · cases h
    cases hr
  · rename_i tokens hscan
    have hspelled : Statement.AllSpelled gr8 tokens := Token.spelled_of_scan hscan
    rcases Statement.read_cases hspelled h with ⟨-, rfl⟩ | ⟨d, -, rfl⟩ |
      ⟨-, s, rest, bodies, hs, -, -, hbodies, rfl⟩
    · cases hr
    · cases hr
    · obtain ⟨head, token, operandTokens, rfl, -, -, -, hoperands, -⟩ :=
        Statement.Line.exists_parts _ hspelled hs
      have hbody : r.body ∈ bodies := by
        rw [← s.map_body_recordsOf number _ bodies]
        exact List.mem_map_of_mem hr
      have hmem {t : Token} (ht : t ∈ operandTokens) :
          t ∈ head ++ token :: (operandTokens ++ rest) := by simp [ht]
      exact Statement.isWritten_of_isOperandList hoperands hbodies hbody
        (fun t ht => hspelled t (hmem ht))
        fun t ht form hform => Token.standsAlone_of_mem_scan hscan (hmem ht) hform

end Assembly

/-- Numbers can be written without regard to what they replace. -/
theorem Record.IsFilled.isWritten {gr8 : Bool} {r q : Record} (h : r.IsFilled q)
    (hr : r.body.IsWritten gr8) : q.body.IsWritten gr8 := by
  refine ⟨?_, ?_, ?_⟩
  · rw [h.body.registers_eq]
    exact hr.registers
  · intro l span hl
    obtain ⟨operand, hoperand, rfl | ⟨value, heq, -⟩⟩ := h.body.exists_operand hl
    · exact hr.literals l span hoperand
    · cases heq
  · intro l span heq
    have hbody := h.body
    rw [heq] at hbody
    generalize hrbody : r.body = b at hbody
    cases hbody with
    | data word =>
      obtain rfl | ⟨value, heq, -⟩ := word
      · exact hr.data l span hrbody
      · cases heq

namespace Assembly

variable {gr8 : Bool}

/-- Every record of a line that does not reserve storage can be printed and read back, also
after numbers have replaced operands. It has the same words then, if it has any. -/
theorem readLine_text {number : Nat} {line : String} {reading : Statement.Reading}
    (h : readLine gr8 number line = .ok reading) {r : Record} (hr : r ∈ reading.records)
    (hmnemonic : r.mnemonic ≠ "DS") {q : Record} (hq : r.IsFilled q) (number' : Nat) :
    ∃ r', readLine gr8 number' q.text = .ok ⟨[r'], []⟩ ∧ r'.label = r.label ∧
      r'.mnemonic = r.mnemonic ∧ q.body.Matches Operand.Agrees Operand.Agrees r'.body ∧
      (number' = r.line → q.words = r'.words) ∧
      (q.isConfirmed = true → ∃ ws, q.words = .ok ws ∧ r'.words = .ok ws) := by
  obtain ⟨hwf, hwritten⟩ := isWritten_of_readLine h hr
  have hqwf := hq.wellFormed hwf
  obtain ⟨r', hread, hlabel, hname, hline, hagrees⟩ := exists_readLine_text hqwf
    (hq.isWritten hwritten) (hq.mnemonic ▸ hmnemonic) number'
  obtain ⟨hwf', -⟩ := isWritten_of_readLine hread (.head _)
  refine ⟨r', hread, hlabel.trans hq.label, hname.trans hq.mnemonic, hagrees, ?_, ?_⟩
  · intro hnumber
    apply Record.words_of_matches hagrees hqwf.operands hwf'.operands
    exact .inl (hq.line.trans (hnumber.symm.trans hline.symm))
  · intro hconfirmed
    have hword : ∀ operand ∈ q.operands, operand.IsWord := by
      intro operand hoperand
      have hresolved := List.all_eq_true.1 hconfirmed operand hoperand
      cases operand with
      | resolved value => exact ⟨value, rfl, hqwf.operands _ hoperand⟩
      | symbol | literal => cases hresolved
    obtain ⟨ws, hws⟩ := Record.exists_words_of_isWord hword
    refine ⟨ws, hws, ?_⟩
    rw [← Record.words_of_matches hagrees hqwf.operands hwf'.operands (.inr hconfirmed), hws]

/-- A line whose label is the name of an instruction, with a quote inside its literal. -/
def quotedLiteral : String := "LD LAD GR1,='A''B',GR2 ; load"

theorem readLine_text_quotedLiteral :
    ∃ reading r r', readLine false 0 quotedLiteral = .ok reading ∧ r ∈ reading.records ∧
      r.mnemonic ≠ "DS" ∧ r.text = "LD       LAD   GR1,='A''B',GR2" ∧
      readLine false 1 (r.mapOperands fun _ => .resolved (-1)).text = .ok ⟨[r'], []⟩ ∧
      r'.label = some "LD" ∧ r'.words = .ok [0x1212, 0xFFFF] := by
  have hfound : ∃ reading ∈ (readLine false 0 quotedLiteral).toOption, ∃ r ∈ reading.records,
      r.mnemonic ≠ "DS" ∧ r.text = "LD       LAD   GR1,='A''B',GR2" ∧ r.label = some "LD" ∧
      (r.mapOperands fun _ => .resolved (-1)).isConfirmed = true ∧
      (r.mapOperands fun _ => .resolved (-1)).words = .ok [0x1212, 0xFFFF] := by
    decide +kernel
  obtain ⟨reading, hread, r, hr, hmnemonic, htext, hlabel, hconfirmed, hwords⟩ := hfound
  have hread' := Traversal.toOption_eq_some.1 hread
  have hfilled : r.IsFilled (r.mapOperands fun _ => .resolved (-1)) :=
    Record.isFilled_mapOperands fun operand _ => .inr ⟨-1, rfl, by decide⟩
  obtain ⟨r', htext', hlabel', -, -, -, hconfirmed'⟩ :=
    readLine_text hread' hr hmnemonic hfilled 1
  obtain ⟨ws, hws, hws'⟩ := hconfirmed' hconfirmed
  cases hwords.symm.trans hws
  exact ⟨reading, r, r', hread', hr, hmnemonic, htext, htext', hlabel'.trans hlabel, hws'⟩

end Assembly

end Comet
