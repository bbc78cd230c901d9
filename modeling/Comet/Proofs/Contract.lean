import Comet.Proofs.Problems
import Comet.Proofs.RecordForm
import Comet.Proofs.Traversal

/-!
# The contract of reading

`Reads E P x` is the contract of a reading function: it gives a result with the
property `P` or stops at a problem with the property `E`, and it never faults.
Contracts compose along `bind`, so there is one for each reading function, from the
meaning of a token up to a whole statement. They rely on nothing but the spelling of
tokens.

Each function is gone through once, with the strongest account of its problems
(`Line.Blames` for a token, `Line.Arises` for a line). What else is said of problems
follows by weakening.
-/

namespace Comet

theorem Charset.length_of_encode? {cs : List Char} {codes : List UInt8}
    (h : encode? cs = some codes) : codes.length = cs.length :=
  (Traversal.mapM_eq_some_iff.1 h).length_eq.symm

namespace Statement

/-- Reading gives a result with the property `P`, or a problem with the property `E`. -/
def Reads {α : Type} (E : Diagnostic → Prop) (P : α → Prop) : Except Stop α → Prop
  | .ok a => P a
  | .error (.problem d) => E d
  | .error (.fault _) => False

namespace Reads

variable {α β : Type} {E E' : Diagnostic → Prop} {P P' : α → Prop} {Q : β → Prop}

theorem bind {x : Except Stop α} {f : α → Except Stop β} (h : Reads E P x)
    (hf : ∀ a, P a → Reads E Q (f a)) : Reads E Q (x >>= f) := by
  cases x with
  | ok a => exact hf a h
  | error stop => cases stop <;> exact h

theorem mono {x : Except Stop α} (h : Reads E P x) (hP : ∀ a, P a → P' a) : Reads E P' x := by
  cases x with
  | ok a => exact hP a h
  | error stop => cases stop <;> exact h

theorem weaken {x : Except Stop α} (h : Reads E P x) (hE : ∀ d, E d → E' d) : Reads E' P x := by
  cases x with
  | ok a => exact h
  | error stop =>
    cases stop with
    | problem d => exact hE d h
    | fault f => exact h

/-- The text of a token may have a problem. -/
theorem problem {line : Line} {token : Token} {kind : Diagnostic.Kind}
    (h : kind.Concerns token.text) : Reads (line.Blames token) P (line.problem token.span kind) :=
  .mk h

end Reads

/-- Tokens that are all spelled as their kinds demand. -/
def AllSpelled (gr8 : Bool) (tokens : List Token) : Prop :=
  ∀ t ∈ tokens, t.IsSpelled gr8

namespace AllSpelled

variable {gr8 : Bool} {tokens rest : List Token} {token : Token}

theorem tail (h : AllSpelled gr8 tokens) : AllSpelled gr8 tokens.tail :=
  fun t ht => h t (List.mem_of_mem_tail ht)

theorem head (h : AllSpelled gr8 tokens) (hrest : token :: rest <:+ tokens) :
    token.IsSpelled gr8 :=
  h token (hrest.subset (.head rest))

end AllSpelled

namespace Line

variable {gr8 : Bool} (line : Line) {token : Token}

/-! ## The meaning of a token -/

theorem reads_value (numeral : List Char) :
    Reads (line.Blames token) (fun value => Word.fits value = true)
      (line.value token numeral) := by
  rw [value]
  split
  · rename_i v hvalue
    exact (Option.filter_eq_some_iff.1 hvalue).2
  · exact .problem .outOfRange

/-- The words of a constant: there is one at least, and each fits. -/
def AreWords (words : List Int) : Prop :=
  words ≠ [] ∧ ∀ value ∈ words, Word.fits value = true

theorem inside?_quoted {cs : List Char} (h : cs.getLast? = some Text.Quoted.quote) :
    inside? (Text.Quoted.quote :: cs) = some cs.dropLast := by
  rw [inside?, h]
  exact if_pos (by decide)

theorem encode?_ne_nil {c : Char} {cs : List Char} {codes : List UInt8}
    (h : Charset.encode? (c :: cs) = some codes) : codes ≠ [] := by
  rintro rfl
  cases Charset.length_of_encode? h

theorem fits_code (code : UInt8) : Word.fits code.toNat = true := by
  have hlt := code.toNat_lt
  rw [Word.fits_iff]
  omega

theorem reads_string {quoted : List Char} (h : Token.IsConstant .string quoted) :
    Reads (line.Blames token) AreWords (line.string token quoted) := by
  cases h with
  | string closed =>
    rw [string, inside?_quoted closed]
    dsimp only
    split
    · exact .problem .unbalancedQuotes
    · exact .problem .empty
    · rename_i text hne _
      split
      · exact .problem .outOfCharset
      · rename_i codes hcodes
        cases text with
        | nil => exact absurd rfl hne
        | cons c cs =>
          refine ⟨fun he => encode?_ne_nil hcodes (List.map_eq_nil_iff.1 he), ?_⟩
          intro value hvalue
          obtain ⟨code, -, rfl⟩ := List.mem_map.1 hvalue
          exact fits_code code

theorem reads_constant {form : ConstantForm} {text : List Char}
    (h : Token.IsConstant form text) :
    Reads (line.Blames token) AreWords (line.constant token form text) := by
  have hnumber : Reads (line.Blames token) AreWords (do return [← line.value token text]) :=
    (line.reads_value text).bind fun value hfits => ⟨by simp, by simpa using hfits⟩
  cases form with
  | decimal => exact hnumber
  | hex => exact hnumber
  | string => exact line.reads_string h

theorem reads_symbol (h : token.IsSpelled gr8)
    (hkind : token.kind = .label ∨ token.kind = .mnemonic) :
    Reads (line.Blames token)
      (fun operand => ∃ name span, operand = .symbol name span ∧ IsLabelName name)
      (line.symbol token) := by
  rw [symbol]
  split
  · exact .problem .reservedLabel
  · rename_i hreserved
    exact ⟨token.text, token.span, rfl, h.isName hkind, Bool.eq_false_iff.2 hreserved⟩

theorem wellFormed_of_symbol {operand : Operand}
    (h : ∃ name span, operand = .symbol name span ∧ IsLabelName name) : operand.WellFormed := by
  obtain ⟨name, span, rfl, hname⟩ := h
  exact hname

theorem reads_addressOf (h : token.IsSpelled gr8) (hkind : token.kind.isAddress = true) :
    Reads (line.Blames token) Operand.WellFormed (line.addressOf token) := by
  have hnumber : Reads (line.Blames token) Operand.WellFormed
      (do return .resolved (← line.value token token.text.toList)) :=
    (line.reads_value _).bind fun value hfits => hfits
  have hsymbol (hkind : token.kind = .label ∨ token.kind = .mnemonic) :
      Reads (line.Blames token) Operand.WellFormed (line.symbol token) :=
    (line.reads_symbol h hkind).mono fun _ => wellFormed_of_symbol
  rw [addressOf]
  split
  · exact hnumber
  · exact hnumber
  · rename_i form hform
    obtain ⟨cs, htext, hconstant⟩ := h.literal hform
    have hmark : afterMark? token.text.toList = some cs := by
      rw [htext, afterMark?]
      exact if_pos (by decide)
    rw [hmark]
    exact (line.reads_constant hconstant).bind fun words hwords => ⟨hwords.1, hwords.2⟩
  · rename_i hdecimal hhex hliteral
    apply hsymbol
    cases hk : token.kind with
    | label => exact .inl rfl
    | mnemonic => exact .inr rfl
    | constant form =>
      cases form with
      | decimal => exact absurd hk hdecimal
      | hex => exact absurd hk hhex
      | string => simp [hk, Token.Kind.isAddress] at hkind
    | literal form => exact absurd hk (hliteral form)
    | _ => simp [hk, Token.Kind.isAddress] at hkind

/-- The data words of one or more constants. -/
def AreConstants (words : List Operand) : Prop :=
  words ≠ [] ∧ ∀ operand ∈ words, operand.WellFormed

theorem AreConstants.append {words more : List Operand} (h : AreConstants words)
    (h' : AreConstants more) : AreConstants (words ++ more) :=
  ⟨List.append_ne_nil_of_left_ne_nil h.1 more, List.forall_mem_append.2 ⟨h.2, h'.2⟩⟩

theorem reads_dataOf (h : token.IsSpelled gr8) (hkind : token.kind.isConstant = true) :
    Reads (line.Blames token) AreConstants (line.dataOf token) := by
  rw [dataOf]
  split
  · rename_i form hform
    refine (line.reads_constant (h.constant hform)).bind fun words hwords => ⟨?_, ?_⟩
    · exact fun he => hwords.1 (List.map_eq_nil_iff.1 he)
    · intro operand hoperand
      obtain ⟨value, hvalue, rfl⟩ := List.mem_map.1 hoperand
      exact hwords.2 value hvalue
  · rename_i hconstant
    have hlabel : token.kind = .label ∨ token.kind = .mnemonic := by
      cases hk : token.kind with
      | label => exact .inl rfl
      | mnemonic => exact .inr rfl
      | constant form => exact absurd hk (hconstant form)
      | _ => simp [hk, Token.Kind.isConstant] at hkind
    refine (line.reads_symbol h hlabel).bind fun operand hoperand => ⟨by simp, ?_⟩
    simpa using wellFormed_of_symbol hoperand

/-! ## Slots -/

section Slots

variable {tokens rest : List Token} {slot : Slot}

/-- A slot is filled by the next token, or its problem is reported. -/
theorem reads_expect {E : Diagnostic → Prop}
    (hE : slot.accepts (line.next rest).kind = false →
      E (line.diagnosticFrom (line.next rest).span.start (slot.report (line.next rest).kind))) :
    Reads E (fun p => rest = p.1 :: p.2 ∧ slot.accepts p.1.kind = true)
      (line.expect slot rest) := by
  rw [expect]
  split
  · rename_i haccepts
    cases rest with
    | nil =>
      change slot.accepts .endOfLine = true at haccepts
      rw [slot.accepts_endOfLine] at haccepts
      cases haccepts
    | cons token rest => exact ⟨rfl, haccepts⟩
  · rename_i haccepts
    exact hE (Bool.eq_false_iff.2 haccepts)

/-- Before its end, a line may be asked for any token. -/
theorem reads_expect_of_goesOn (slot : Slot) (h : line.GoesOn tokens rest) :
    Reads (line.Arises tokens) (fun p => rest = p.1 :: p.2 ∧ slot.accepts p.1.kind = true)
      (line.expect slot rest) := by
  refine line.reads_expect fun _ => ?_
  rw [Slot.report, h.endsLine_eq]
  exact .unexpected h

/-- A part of the statement is missing, or something else stands in its place. -/
theorem reads_expect_of_isPlace (hslot : slot.IsPart) (h : IsPlace tokens rest) :
    Reads (line.Arises tokens) (fun p => rest = p.1 :: p.2 ∧ slot.accepts p.1.kind = true)
      (line.expect slot rest) := by
  refine line.reads_expect fun _ => ?_
  obtain ⟨part, hpart⟩ := hslot.absence
  rw [Slot.report]
  split
  · rename_i hends
    rw [hpart]
    exact .missing h.isSuffix (line.atEnd_of_endsLine hends)
  · rename_i hends
    exact .unexpected (.place h (Bool.eq_false_iff.2 hends))

theorem reads_separator {mark : Slot} (hmark : mark.IsMark) (hslot : slot.IsPart)
    (h : rest <:+ tokens) :
    Reads (line.Arises tokens) (IsPlace tokens) (line.separator mark slot rest) := by
  rw [separator]
  split
  · rename_i hend
    obtain ⟨part, hpart⟩ := hslot.absence
    rw [hpart]
    exact .missing h hend
  · rename_i hend
    refine (line.reads_expect_of_goesOn mark (.begun h (Bool.eq_false_iff.2 hend))).bind ?_
    rintro ⟨token, rest⟩ ⟨rfl, haccepts⟩
    exact ⟨token, hmark.isMark_of_accepts haccepts, h⟩

end Slots

/-! ## Operands -/

section Operands

variable {tokens rest : List Token} {slot : Slot} (hspelled : AllSpelled gr8 tokens)

include hspelled

theorem reads_register (hslot : slot.TakesRegister) (hpart : slot.IsPart)
    (h : IsPlace tokens rest) :
    Reads (line.Arises tokens) (fun p => p.2 <:+ tokens ∧ atEnd rest = false ∧
      (line.next rest).text = p.1.name) (line.register slot rest) := by
  refine (line.reads_expect_of_isPlace hpart h).bind ?_
  rintro ⟨token, rest⟩ ⟨rfl, haccepts⟩
  have hkind : token.kind = .register := beq_iff_eq.1 ((hslot _).symm.trans haccepts)
  obtain ⟨r, hr⟩ := (hspelled.head h.isSuffix).exists_register hkind
  dsimp only
  rw [hr]
  exact ⟨(List.suffix_cons token rest).trans h.isSuffix, line.atEnd_of_accepts hpart haccepts,
    Register.ofName?_eq_some_iff.1 hr⟩

theorem reads_address (hslot : slot.TakesAddress) (hpart : slot.IsPart)
    (h : IsPlace tokens rest) :
    Reads (line.Arises tokens) (fun p => p.1.WellFormed ∧ p.2 <:+ tokens)
      (line.address slot rest) := by
  refine (line.reads_expect_of_isPlace hpart h).bind ?_
  rintro ⟨token, rest⟩ ⟨rfl, haccepts⟩
  have htoken := hspelled.head h.isSuffix
  have hproblem : ∀ d, line.Blames token d → line.Arises tokens d :=
    fun d => .ofToken h.isSuffix (line.atEnd_of_accepts hpart haccepts)
  refine ((line.reads_addressOf htoken (hslot _ ▸ haccepts)).weaken hproblem).bind ?_
  exact fun operand hoperand => ⟨hoperand, (List.suffix_cons token rest).trans h.isSuffix⟩

theorem reads_index (h : rest <:+ tokens) :
    Reads (line.Arises tokens) (fun p => p.1 ≠ some .gr0 ∧ p.2 <:+ tokens) (line.index rest) := by
  rw [index]
  split
  · exact ⟨by simp, h⟩
  · rename_i hend
    refine (line.reads_expect_of_goesOn .comma (.begun h (Bool.eq_false_iff.2 hend))).bind ?_
    rintro ⟨comma, rest⟩ ⟨rfl, haccepts⟩
    have hplace : IsPlace tokens rest :=
      ⟨comma, Slot.IsMark.isMark_of_accepts (.inr rfl) haccepts, h⟩
    dsimp only
    refine (line.reads_register hspelled (fun _ => rfl) ⟨⟨_, rfl⟩, rfl⟩ hplace).bind ?_
    rintro ⟨r, rest⟩ ⟨hrest, hunfinished, hname⟩
    dsimp only at hname ⊢
    split
    · rename_i hzero
      rw [hzero] at hname
      exact .zeroIndex hplace.isSuffix hunfinished hname
    · rename_i hne
      exact ⟨by simpa using hne, hrest⟩

theorem reads_indexedAddress (h : IsPlace tokens rest) :
    Reads (line.Arises tokens)
      (fun p => p.1.WellFormed ∧ p.2.1 ≠ some .gr0 ∧ p.2.2 <:+ tokens)
      (line.indexedAddress rest) := by
  refine (line.reads_address hspelled (fun _ => rfl) ⟨⟨_, rfl⟩, rfl⟩ h).bind ?_
  rintro ⟨adr, rest⟩ ⟨hadr, hrest⟩
  exact (line.reads_index hspelled hrest).bind fun _ hx => ⟨hadr, hx⟩

omit hspelled in
theorem reads_wordCount (h : IsPlace tokens rest) :
    Reads (line.Arises tokens) (fun p => p.2 <:+ tokens) (line.wordCount rest) := by
  have hpart : Slot.wordCount.IsPart := ⟨⟨_, rfl⟩, rfl⟩
  refine (line.reads_expect_of_isPlace hpart h).bind ?_
  rintro ⟨token, rest⟩ ⟨rfl, haccepts⟩
  have hproblem : ∀ d, line.Blames token d → line.Arises tokens d :=
    fun d => .ofToken h.isSuffix (line.atEnd_of_accepts hpart haccepts)
  refine ((line.reads_value _).weaken hproblem).bind fun count _ => ?_
  split
  · exact hproblem _ (.mk .invalidWordCount)
  · exact (List.suffix_cons token rest).trans h.isSuffix

theorem reads_dataWords (h : IsPlace tokens rest) :
    Reads (line.Arises tokens) (fun p => AreConstants p.1 ∧ p.2 = rest.tail)
      (line.dataWords rest) := by
  have hpart : Slot.constant.IsPart := ⟨⟨_, rfl⟩, rfl⟩
  refine (line.reads_expect_of_isPlace hpart h).bind ?_
  rintro ⟨token, rest⟩ ⟨rfl, haccepts⟩
  have hproblem : ∀ d, line.Blames token d → line.Arises tokens d :=
    fun d => .ofToken h.isSuffix (line.atEnd_of_accepts hpart haccepts)
  refine ((line.reads_dataOf (hspelled.head h.isSuffix) haccepts).weaken hproblem).bind ?_
  exact fun words hwords => ⟨hwords, rfl⟩

omit hspelled in
/-- Only the token itself decides whether it is a constant. -/
theorem dataWords_singleton (token : Token) (rest : List Token) :
    line.dataWords [token] = (do
      let (words, _) ← line.dataWords (token :: rest)
      return (words, [])) := by
  rw [dataWords, dataWords, expect, expect]
  change (if Slot.accepts .constant token.kind = true then _ else _) >>= _ =
    ((if Slot.accepts .constant token.kind = true then _ else _) >>= _) >>= _
  split
  · change (line.dataOf token >>= _) = (line.dataOf token >>= _) >>= _
    cases line.dataOf token <;> rfl
  · rfl

theorem reads_constants (h : IsPlace tokens rest) :
    Reads (line.Arises tokens) (fun p => AreConstants p.1 ∧ p.2 <:+ tokens)
      (line.constants rest) := by
  fun_induction constants line rest with
  | case1 =>
    refine (line.reads_dataWords hspelled h).mono ?_
    rintro ⟨words, _⟩ ⟨hwords, rfl⟩
    exact ⟨hwords, List.nil_suffix⟩
  | case2 token =>
    refine (line.reads_dataWords hspelled h).mono ?_
    rintro ⟨words, _⟩ ⟨hwords, rfl⟩
    exact ⟨hwords, List.nil_suffix⟩
  | case3 token comma rest ih =>
    have hrest : comma :: rest <:+ tokens := (List.suffix_cons token _).trans h.isSuffix
    have hfirst : Reads (line.Arises tokens) (fun p => AreConstants p.1)
        (line.dataWords [token]) := by
      rw [line.dataWords_singleton token (comma :: rest)]
      exact (line.reads_dataWords hspelled h).bind fun _ hwords => hwords.1
    refine hfirst.bind ?_
    rintro ⟨words, _⟩ hwords
    dsimp only
    split
    · rename_i hcomma
      refine (ih ⟨comma, by rw [hcomma]; rfl, hrest⟩).bind ?_
      exact fun more hmore => ⟨hwords.append hmore.1, hmore.2⟩
    · exact ⟨hwords, hrest⟩

end Operands

end Line

/-- The operands that an instruction of a shape may have. -/
inductive Operands.HasShape : Operands → Shape → Prop
  | none : HasShape .none .none
  | register {r : Register} : HasShape (.register r) .register
  | address {adr : Operand} {x : Option Register} (adr_wf : adr.WellFormed)
      (index : x ≠ some .gr0) : HasShape (.address adr x) .address
  | registerAddress {shape : Shape} {r : Register} {adr : Operand} {x : Option Register}
      (shape_eq : shape = .registerAddress ∨ shape = .registerOrAddress)
      (adr_wf : adr.WellFormed) (index : x ≠ some .gr0) :
      HasShape (.registerAddress r adr x) shape
  | registers {r1 r2 : Register} : HasShape (.registers r1 r2) .registerOrAddress
  | buffer {buffer length : Operand} (buffer_wf : buffer.WellFormed)
      (length_wf : length.WellFormed) : HasShape (.buffer buffer length) .buffer
  | entry {target : Option Operand}
      (target_wf : ∀ operand ∈ target, ∃ name span, operand = .symbol name span ∧
        IsLabelName name) : HasShape (.entry target) .entry
  | wordCount {count : Nat} : HasShape (.wordCount count) .wordCount
  | constants {words : List Operand} (words_wf : Line.AreConstants words) :
      HasShape (.constants words) .constants

namespace Line

section Operands

variable {gr8 : Bool} (line : Line) {tokens rest : List Token}
  (hspelled : AllSpelled gr8 tokens)

include hspelled

theorem reads_buffer {bufferSlot lengthSlot : Slot} (hbuffer : bufferSlot.TakesAddress)
    (hlength : lengthSlot.TakesAddress) (hbufferPart : bufferSlot.IsPart)
    (hlengthPart : lengthSlot.IsPart) (h : rest <:+ tokens) :
    Reads (line.Arises tokens) (fun p => p.1.HasShape .buffer ∧ p.2 <:+ tokens)
      (line.buffer bufferSlot lengthSlot rest) := by
  refine (line.reads_separator (.inl rfl) hbufferPart h).bind fun rest hplace => ?_
  refine (line.reads_address hspelled hbuffer hbufferPart hplace).bind ?_
  rintro ⟨buffer, rest⟩ ⟨hb, hrest⟩
  refine (line.reads_separator (.inr rfl) hlengthPart hrest).bind fun rest hplace => ?_
  refine (line.reads_address hspelled hlength hlengthPart hplace).bind ?_
  rintro ⟨length, rest⟩ ⟨hl, hrest⟩
  exact ⟨.buffer hb hl, hrest⟩

/-- The entry of a program may be left out, so it is asked for only before the end of the line. -/
theorem reads_entry (h : rest <:+ tokens) (hend : atEnd rest = false) :
    Reads (line.Arises tokens) (fun p => p.1.HasShape .entry ∧ p.2 <:+ tokens) (do
      let (_, rest) ← line.expect .space rest
      let (token, rest) ← line.expect .entryLabel rest
      let target ← line.symbol token
      return (Operands.entry (some target), rest)) := by
  refine (line.reads_expect_of_goesOn .space (.begun h hend)).bind ?_
  rintro ⟨space, rest⟩ ⟨rfl, hspace⟩
  have hplace : IsPlace tokens rest := ⟨space, Slot.IsMark.isMark_of_accepts (.inl rfl) hspace, h⟩
  have hnext := line.endsLine_next_of_space (beq_iff_eq.1 hspace) hend
  refine (line.reads_expect_of_goesOn .entryLabel (.place hplace hnext)).bind ?_
  rintro ⟨token, rest⟩ ⟨rfl, haccepts⟩
  have hkind : token.kind = .label ∨ token.kind = .mnemonic := by
    simpa [Slot.accepts] using haccepts
  have hunfinished : atEnd (token :: rest) = false :=
    atEnd_cons_of_ne (by rcases hkind with hkind | hkind <;> simp [hkind]) hnext rest
  have hproblem : ∀ d, line.Blames token d → line.Arises tokens d :=
    fun d => .ofToken hplace.isSuffix hunfinished
  refine ((line.reads_symbol (hspelled.head hplace.isSuffix) hkind).weaken hproblem).bind ?_
  intro target htarget
  exact ⟨.entry (by simpa using htarget), (List.suffix_cons token rest).trans hplace.isSuffix⟩

theorem reads_operands (m : Mnemonic) (h : rest <:+ tokens) :
    Reads (line.Arises tokens) (fun p => p.1.HasShape m.shape ∧ p.2 <:+ tokens)
      (line.operands m rest) := by
  rw [operands]
  cases hshape : m.shape with
  | none => exact ⟨.none, h⟩
  | register =>
    refine (line.reads_separator (.inl rfl) ⟨⟨_, rfl⟩, rfl⟩ h).bind fun rest hplace => ?_
    refine (line.reads_register hspelled (fun _ => rfl) ⟨⟨_, rfl⟩, rfl⟩ hplace).bind ?_
    exact fun _ hr => ⟨.register, hr.1⟩
  | address =>
    refine (line.reads_separator (.inl rfl) ⟨⟨_, rfl⟩, rfl⟩ h).bind fun rest hplace => ?_
    refine (line.reads_indexedAddress hspelled hplace).bind ?_
    exact fun _ hadr => ⟨.address hadr.1 hadr.2.1, hadr.2.2⟩
  | registerAddress =>
    refine (line.reads_separator (.inl rfl) ⟨⟨_, rfl⟩, rfl⟩ h).bind fun rest hplace => ?_
    refine (line.reads_register hspelled (fun _ => rfl) ⟨⟨_, rfl⟩, rfl⟩ hplace).bind ?_
    rintro ⟨r, rest⟩ ⟨hrest, -⟩
    refine (line.reads_separator (.inr rfl) ⟨⟨_, rfl⟩, rfl⟩ hrest).bind fun rest hplace => ?_
    refine (line.reads_indexedAddress hspelled hplace).bind ?_
    exact fun _ hadr => ⟨.registerAddress (.inl rfl) hadr.1 hadr.2.1, hadr.2.2⟩
  | registerOrAddress =>
    refine (line.reads_separator (.inl rfl) ⟨⟨_, rfl⟩, rfl⟩ h).bind fun rest hplace => ?_
    refine (line.reads_register hspelled (fun _ => rfl) ⟨⟨_, rfl⟩, rfl⟩ hplace).bind ?_
    rintro ⟨r, rest⟩ ⟨hrest, -⟩
    refine (line.reads_separator (.inr rfl) ⟨⟨_, rfl⟩, rfl⟩ hrest).bind fun rest hplace => ?_
    dsimp only
    split
    · refine (line.reads_indexedAddress hspelled hplace).bind ?_
      exact fun _ hadr => ⟨.registerAddress (.inr rfl) hadr.1 hadr.2.1, hadr.2.2⟩
    · refine (line.reads_register hspelled (fun _ => rfl) ⟨⟨_, rfl⟩, rfl⟩ hplace).bind ?_
      exact fun _ hr => ⟨.registers, hr.1⟩
  | buffer =>
    dsimp only
    split
    · exact line.reads_buffer hspelled (fun _ => rfl) (fun _ => rfl) ⟨⟨_, rfl⟩, rfl⟩
        ⟨⟨_, rfl⟩, rfl⟩ h
    · exact line.reads_buffer hspelled (fun _ => rfl) (fun _ => rfl) ⟨⟨_, rfl⟩, rfl⟩
        ⟨⟨_, rfl⟩, rfl⟩ h
  | entry =>
    dsimp only
    split
    · exact ⟨.entry (by simp), h⟩
    · rename_i hend
      exact line.reads_entry hspelled h (Bool.eq_false_iff.2 hend)
  | wordCount =>
    refine (line.reads_separator (.inl rfl) ⟨⟨_, rfl⟩, rfl⟩ h).bind fun rest hplace => ?_
    exact (line.reads_wordCount hplace).bind fun _ hcount => ⟨.wordCount, hcount⟩
  | constants =>
    refine (line.reads_separator (.inl rfl) ⟨⟨_, rfl⟩, rfl⟩ h).bind fun rest hplace => ?_
    refine (line.reads_constants hspelled hplace).bind ?_
    exact fun _ hwords => ⟨.constants hwords.1, hwords.2⟩

end Operands

end Line

/-! ## Statements and their records -/

/-- A statement that a source text can have. -/
structure WellFormed (s : Statement) : Prop where
  mnemonic : s.mnemonic ∈ Mnemonic.table
  operands : s.operands.HasShape s.mnemonic.shape
  label : ∀ name ∈ s.label, IsLabelName name

namespace Line

variable {gr8 : Bool} (line : Line) {tokens rest : List Token}

/-- The blank behind a label is asked for without a look at the rest of the line. -/
theorem reads_labelled {token : Token} (htoken : token.IsSpelled gr8)
    (hkind : token.kind = .label ∨ token.kind = .mnemonic) (h : token :: rest <:+ tokens)
    (hspace : Slot.accepts .space (line.next rest).kind = false →
      line.Arises tokens (line.diagnosticFrom (line.next rest).span.start (.expected .space))) :
    Reads (line.Arises tokens) (fun p => (∀ name ∈ p.1, IsLabelName name) ∧ IsPlace tokens p.2)
      (line.labelled token rest) := by
  have hreport : Slot.report .space (line.next rest).kind = .expected .space := by
    rw [Slot.report]
    split <;> rfl
  refine (line.reads_expect (hreport ▸ hspace)).bind ?_
  rintro ⟨space, rest⟩ ⟨rfl, haccepts⟩
  dsimp only
  split
  · have hends : token.kind.endsLine = false := by
      rcases hkind with hkind | hkind <;> simp [hkind, Token.Kind.endsLine]
    have hne : token.kind ≠ .space := by
      rcases hkind with hkind | hkind <;> simp [hkind]
    have hproblem : line.Blames token ⟨⟨line.number, token.span⟩, .reservedLabel token.text⟩ :=
      .mk .reservedLabel
    exact .ofToken h (atEnd_cons_of_ne hne hends _) hproblem
  · rename_i hreserved
    refine ⟨?_, space, Slot.IsMark.isMark_of_accepts (.inl rfl) haccepts,
      (List.suffix_cons token _).trans h⟩
    rintro name ⟨⟩
    exact ⟨htoken.isName hkind, Bool.eq_false_iff.2 hreserved⟩

theorem accepts_space_of_labelsInstruction {token : Token}
    (h : labelsInstruction (token :: rest) = true) :
    Slot.accepts .space (line.next rest).kind = true := by
  rw [labelsInstruction.eq_def] at h
  split at h
  · rename_i heq
    cases heq
    exact (Bool.and_eq_true_iff.1 h).1
  · cases h

/-- What is wrong behind a label that no blank follows. -/
theorem arises_of_label {token : Token} (hkind : token.kind = .label)
    (hspace : Slot.accepts .space (line.next rest).kind = false) :
    line.Arises (token :: rest)
      (line.diagnosticFrom (line.next rest).span.start (.expected .space)) := by
  cases hends : (line.next rest).kind.endsLine with
  | true => exact .bareLabel hkind hends
  | false =>
    have hunfinished := (line.atEnd_eq_endsLine (ne_of_beq_false hspace)).trans hends
    exact .unexpected (.begun (List.suffix_cons token rest) hunfinished)

theorem reads_label (hspelled : AllSpelled gr8 tokens) (hend : atEnd tokens = false) :
    Reads (line.Arises tokens)
      (fun p => (∀ name ∈ p.1, IsLabelName name) ∧
        (IsPlace tokens p.2 ∨ p.2 = tokens ∧ (line.next tokens).kind = .mnemonic))
      (line.label tokens) := by
  have hnone : ∀ name ∈ (none : Option String), IsLabelName name := by simp
  cases tokens with
  | nil => cases hend
  | cons token rest =>
    have hsuffix : token :: rest <:+ token :: rest := List.suffix_refl _
    have htoken := hspelled token (.head rest)
    rw [label, next_cons, List.tail_cons]
    split
    · rename_i hkind
      exact ⟨hnone, .inl ⟨token, by rw [hkind]; rfl, hsuffix⟩⟩
    · rename_i hkind
      split
      · rename_i hlabels
        refine (line.reads_labelled htoken (.inr hkind) hsuffix fun hspace => ?_).mono
          fun _ hp => hp.imp_right .inl
        rw [line.accepts_space_of_labelsInstruction hlabels] at hspace
        cases hspace
      · exact ⟨hnone, .inr ⟨rfl, hkind⟩⟩
    · rename_i hkind
      exact (line.reads_labelled htoken (.inl hkind) hsuffix (line.arises_of_label hkind)).mono
        fun _ hp => hp.imp_right .inl
    · exact .unexpected (.begun hsuffix hend)

theorem reads_mnemonic
    (h : IsPlace tokens rest ∨ rest = tokens ∧ (line.next tokens).kind = .mnemonic) :
    Reads (line.Arises tokens) (fun p => p.1 :: p.2 <:+ tokens ∧ p.1.kind = .mnemonic)
      (line.expect .mnemonic rest) := by
  rcases h with hplace | ⟨rfl, hkind⟩
  · refine (line.reads_expect_of_isPlace ⟨⟨_, rfl⟩, rfl⟩ hplace).mono ?_
    rintro ⟨token, rest⟩ ⟨rfl, haccepts⟩
    exact ⟨hplace.isSuffix, beq_iff_eq.1 haccepts⟩
  · refine (line.reads_expect fun hrejects => ?_).mono ?_
    · rw [hkind] at hrejects
      cases hrejects
    · rintro ⟨token, rest⟩ ⟨rfl, haccepts⟩
      exact ⟨List.suffix_refl _, beq_iff_eq.1 haccepts⟩

/-- The tokens that are not read are left at the end. -/
theorem reads_statement (hspelled : AllSpelled gr8 tokens) (hend : atEnd tokens = false) :
    Reads (line.Arises tokens) (fun p => p.1.WellFormed ∧ p.2 <:+ tokens)
      (line.statement tokens) := by
  refine (line.reads_label hspelled hend).bind ?_
  rintro ⟨label, rest⟩ ⟨hlabel, hrest⟩
  refine (line.reads_mnemonic hrest).bind ?_
  rintro ⟨token, rest⟩ ⟨hsuffix, hkind⟩
  have hrow := (hspelled.head hsuffix).ofName?_isSome hkind
  obtain ⟨m, hm⟩ := Option.isSome_iff_exists.1 hrow
  dsimp only
  rw [hm]
  refine (line.reads_operands hspelled m ((List.suffix_cons token rest).trans hsuffix)).bind ?_
  rintro ⟨operands, rest⟩ ⟨hoperands, hrest⟩
  exact ⟨⟨Mnemonic.mem_of_ofName? hm, hoperands, hlabel⟩, hrest⟩

end Line

end Statement

end Comet
