import Comet.Proofs.EmittedWords
import Comet.Proofs.LineOutcomes
import Comet.Proofs.NumeralValues
import Comet.Proofs.SourceSpans

/-!
# The uses of numerals

A numeral of a line is read where an address, a constant or a number of words is due. `Reaches`
says that it stands there: whatever comes before it is as the grammar asks, and nothing is asked
of what follows it. `TakesNumber` lists what can come of the line then. A number that does not fit
in a word is an error of the whole token. Otherwise the number is an operand of the records, or
the storage that they reserve, unless something behind it is wrong.

What is wrong then stands behind the numeral, because reading goes on with the tokens that follow
it (`IsBehind.reads`).
-/

namespace Comet

namespace Token

/-- The characters of a constant without the mark of a literal. -/
def numeral (token : Token) : List Char :=
  if token.kind.isLiteral then token.text.toList.tail else token.text.toList

/-- The operand that a numeral is, if it denotes the given value. -/
def numberOperand (token : Token) (value : Int) : Operand :=
  if token.kind.isLiteral then .literal ⟨token.text, [value]⟩ token.span else .resolved value

theorem numeral_of_constant {token : Token} {form : ConstantForm}
    (h : token.kind = .constant form) : token.numeral = token.text.toList := by
  rw [numeral, h]
  rfl

theorem numeral_of_literal {token : Token} {form : ConstantForm} (h : token.kind = .literal form) :
    token.numeral = token.text.toList.tail := by
  rw [numeral, h]
  rfl

/-- The token is a numeral, by itself or as a literal. -/
structure IsNumeral (token : Token) (form : ConstantForm) : Prop where
  number : form ≠ .string
  kind : token.kind = .constant form ∨ token.kind = .literal form

namespace IsNumeral

variable {gr8 : Bool} {token : Token} {form : ConstantForm}

theorem isConstant (h : token.IsNumeral form) (hspelled : token.IsSpelled gr8) :
    IsConstant form token.numeral := by
  rcases h.kind with hkind | hkind
  · rw [numeral_of_constant hkind]
    exact hspelled.constant hkind
  · obtain ⟨cs, htext, hconstant⟩ := hspelled.literal hkind
    rw [numeral_of_literal hkind, htext]
    exact hconstant

/-- Every numeral that can be scanned denotes a number. -/
theorem exists_denotes (h : token.IsNumeral form) (hspelled : token.IsSpelled gr8) :
    ∃ v, Text.Numeral.Denotes form token.numeral v :=
  Text.Numeral.exists_denotes (h.isConstant hspelled) h.number

end IsNumeral

end Token

namespace Statement

/-! ## Where numerals stand -/

/-- What a numeral is read as. Addresses and constants are counted by the operands before them. -/
inductive Role
  | address (position : Nat)
  | constant (position : Nat)
  | wordCount
  deriving DecidableEq, Repr

namespace Role

/-- The place among the operands. -/
def position? : Role → Option Nat
  | address position | constant position => some position
  | wordCount => none

/-- The tokens that can have the role. -/
def accepts : Role → Token.Kind → Bool
  | address _, kind => kind.isAddress
  | constant _, kind => kind.isConstant
  | wordCount, kind => kind == .constant .decimal

end Role

/-- Constants, each with the comma behind it, and the number of their words. -/
inductive IsConstantFront : List Token → Nat → Prop
  | nil : IsConstantFront [] 0
  | cons {token comma : Token} {words : List Operand} {tokens : List Token} {count : Nat}
      (data : token.WritesData words) (separator : comma.kind = .comma)
      (rest : IsConstantFront tokens count) :
      IsConstantFront (token :: comma :: tokens) (words.length + count)

/-- What stands between the name of an instruction and one of its operands. -/
inductive Leads (m : Mnemonic) : List Token → Role → Prop
  | address {space : Token} (shape : m.shape = .address ∨ m.shape = .buffer)
      (blank : space.kind = .space) : Leads m [space] (.address 0)
  | registerAddress {space first comma : Token} {r : Register}
      (shape : m.shape = .registerAddress ∨ m.shape = .registerOrAddress)
      (blank : space.kind = .space) (register : first.IsRegister r)
      (separator : comma.kind = .comma) : Leads m [space, first, comma] (.address 0)
  | length {space first comma : Token} {buffer : Operand} (shape : m.shape = .buffer)
      (blank : space.kind = .space) (address : first.WritesAddress buffer)
      (separator : comma.kind = .comma) : Leads m [space, first, comma] (.address 1)
  | constant {space : Token} {tokens : List Token} {count : Nat} (shape : m.shape = .constants)
      (blank : space.kind = .space) (front : IsConstantFront tokens count) :
      Leads m (space :: tokens) (.constant count)
  | wordCount {space : Token} (shape : m.shape = .wordCount) (blank : space.kind = .space) :
      Leads m [space] .wordCount

/-- The tokens of a line are right up to `rest`, which begins where a token of the role is due. -/
inductive Reaches : List Token → Role → List Token → Prop
  | mk {head front rest : List Token} {label : Option String} {name : Token} {m : Mnemonic}
      {role : Role} (isHead : IsHead head label) (kind : name.kind = .mnemonic)
      (row : Mnemonic.ofName? name.text = some m) (leads : Leads m front role)
      (bare : head = [] → ¬ FollowLabel (front ++ rest)) :
      Reaches (head ++ name :: (front ++ rest)) role rest

/-- What comes of a line that has a numeral of the given value in a role. -/
inductive TakesNumber (number : Nat) (tokens : List Token) (token : Token) (v : Int) :
    Role → Reading → Prop
  | outOfRange {role : Role} (range : v < -32768 ∨ 65535 < v) :
      TakesNumber number tokens token v role
        ⟨[], [⟨⟨number, token.span⟩, .outOfRange (String.ofList token.numeral)⟩]⟩
  | negative (lower : -32768 ≤ v) (sign : v < 0) :
      TakesNumber number tokens token v .wordCount
        ⟨[], [⟨⟨number, token.span⟩, .invalidWordCount⟩]⟩
  | reserved {reading : Reading} (nonneg : 0 ≤ v) (upper : v ≤ 65535)
      (outcome : reading.HasOutcome .accepted)
      (code : Image.code reading.records = .ok (List.replicate v.toNat 0))
      (length : Layout.byteLength reading.records = 2 * v.toNat) :
      TakesNumber number tokens token v .wordCount reading
  | operand {role : Role} {position : Nat} {reading : Reading} (lower : -32768 ≤ v)
      (upper : v ≤ 65535) (outcome : reading.HasOutcome .accepted)
      (place : role.position? = some position)
      (operand : (reading.records.flatMap (·.operands))[position]? =
        some (token.numberOperand v)) :
      TakesNumber number tokens token v role reading
  /-- The rest of the line is wrong. -/
  | later {role : Role} {position : Nat} {d : Diagnostic} (lower : -32768 ≤ v)
      (upper : v ≤ 65535) (place : role.position? = some position)
      (behind : token.span.start < d.span.start) (wrong : ∀ s, ¬ IsLine tokens s) :
      TakesNumber number tokens token v role ⟨[], [d]⟩

/-! ## Problems behind a column -/

/-- The problem begins at the column or behind it. -/
def StartsFrom (column : Nat) (d : Diagnostic) : Prop := column ≤ d.span.start

namespace Line

/-- The tokens that are left begin at the column or behind it. -/
structure IsBehind (line : Line) (column : Nat) (tokens : List Token) : Prop where
  stop : column ≤ line.stop
  starts : ∀ t ∈ tokens, column ≤ t.span.start

namespace IsBehind

variable {line : Line} {column : Nat} {tokens rest : List Token}
  (h : line.IsBehind column tokens)

include h

theorem next (hrest : rest <:+ tokens) : column ≤ (line.next rest).span.start := by
  cases rest with
  | nil => exact h.stop
  | cons token rest => exact h.starts token (hrest.subset (.head rest))

/-- The problems of the tokens stand behind the column, too. -/
theorem startsFrom_of_arises {d : Diagnostic} (hd : line.Arises tokens d) :
    StartsFrom column d := by
  cases hd with
  | missing left => exact h.next left
  | unexpected goesOn => exact h.next goesOn.isSuffix
  | bareLabel => exact h.next (List.tail_suffix tokens)
  | ofToken left _ blames =>
    cases blames with
    | mk => exact h.next left
  | zeroIndex left => exact h.next left

/-- Reading the tokens stops behind the column, if at all. -/
theorem reads {α : Type} {P : α → Prop} {x : Except Stop α} (hx : Reads (line.Arises tokens) P x) :
    Reads (StartsFrom column) P x :=
  hx.weaken fun _ => h.startsFrom_of_arises

end IsBehind

/-- Behind a token of a scanned line there are only columns after its own. -/
theorem isBehind_ofTokens {gr8 : Bool} {number : Nat} {source : String} {front rest : List Token}
    {token : Token} (hscan : Token.scan gr8 number source = .ok (front ++ token :: rest))
    (hkind : token.kind ≠ .endOfLine) :
    (Line.ofTokens number (front ++ token :: rest)).IsBehind (token.span.start + 1) rest := by
  have hscanFrom := Token.scan_eq_ok_iff.1 hscan
  have hpairwise := (List.pairwise_append.1 (Token.pairwise_start_of_scanFrom hscanFrom)).2.1
  have hbehind := (List.pairwise_cons.1 hpairwise).1
  refine ⟨?_, hbehind⟩
  -- The line ends at its last token, which is not the one in question.
  have hlast := Token.getLast?_of_scanFrom hscanFrom
  rw [List.getLast?_append_of_ne_nil _ (List.cons_ne_nil _ _)] at hlast
  cases rest with
  | nil =>
    cases hlast
    exact absurd rfl hkind
  | cons next rest =>
    rw [List.getLast?_cons_cons] at hlast
    have hstop := hbehind _ (List.mem_of_getLast? hlast)
    rw [stop_ofTokens hscan]
    exact Nat.succ_le_of_lt (by simpa [Token.atLineEnd, Token.ofText, Span.ofText] using hstop)

/-! ## The meaning of a numeral -/

section

variable (line : Line) {gr8 : Bool} {token : Token} {rest : List Token} {form : ConstantForm}
  {v : Int}

/-- The operand that a numeral of the given value is, if it fits in a word. -/
def numberOf (token : Token) (v : Int) : Except Stop Operand :=
  if Word.fits v then .ok (token.numberOperand v)
  else line.problem token.span (.outOfRange (String.ofList token.numeral))

theorem value_of_denotes (token : Token) {cs : List Char} (h : Text.Numeral.Denotes form cs v) :
    line.value token cs = if Word.fits v then .ok v
      else line.problem token.span (.outOfRange (String.ofList cs)) := by
  rw [value, h.value?_eq]
  cases hfits : Word.fits v with
  | true => rw [Option.filter_some_pos hfits, if_pos rfl]
  | false =>
    rw [Option.filter_some_neg hfits]
    rfl

theorem constant_of_ne_string (h : form ≠ .string) (cs : List Char) :
    line.constant token form cs = (do return [← line.value token cs]) := by
  cases form with
  | decimal | hex => rfl
  | string => exact absurd rfl h

theorem addressOf_of_isNumeral (h : token.IsNumeral form) (hspelled : token.IsSpelled gr8)
    (hv : Text.Numeral.Denotes form token.numeral v) :
    line.addressOf token = line.numberOf token v := by
  have hvalue := line.value_of_denotes token hv
  rcases h.kind with hkind | hkind
  · have haddress : line.addressOf token =
        (do return .resolved (← line.value token token.numeral)) := by
      rw [addressOf, hkind, Token.numeral_of_constant hkind]
      cases form with
      | decimal | hex => rfl
      | string => exact absurd rfl h.number
    rw [haddress, hvalue, numberOf, Token.numberOperand, hkind]
    cases Word.fits v <;> rfl
  · obtain ⟨cs, htext, -⟩ := hspelled.literal hkind
    have hmark : afterMark? token.text.toList = some token.numeral := by
      rw [Token.numeral_of_literal hkind, htext, afterMark?]
      exact if_pos (by decide)
    rw [addressOf, hkind]
    dsimp only
    rw [hmark]
    dsimp only
    rw [line.constant_of_ne_string h.number, hvalue, numberOf, Token.numberOperand, hkind]
    cases Word.fits v <;> rfl

theorem dataOf_of_isNumeral (h : token.IsNumeral form) (hkind : token.kind = .constant form)
    (hv : Text.Numeral.Denotes form token.numeral v) :
    line.dataOf token = (do return [← line.numberOf token v]) := by
  rw [dataOf, hkind]
  dsimp only
  rw [← Token.numeral_of_constant hkind, line.constant_of_ne_string h.number,
    line.value_of_denotes token hv, numberOf, Token.numberOperand, hkind]
  cases Word.fits v <;> rfl

theorem wordCount_of_denotes (hkind : token.kind = .constant .decimal)
    (hv : Text.Numeral.Denotes form token.numeral v) :
    line.wordCount (token :: rest) = if Word.fits v then
        if v < 0 then line.problem token.span .invalidWordCount else .ok (v.toNat, rest)
      else line.problem token.span (.outOfRange (String.ofList token.numeral)) := by
  have hexpect : line.expect .wordCount (token :: rest) = .ok (token, rest) :=
    line.expect_eq_ok.2 ⟨rfl, beq_iff_eq.2 hkind⟩
  simp only [wordCount, hexpect, bind, Except.bind]
  rw [← Token.numeral_of_constant hkind, line.value_of_denotes token hv]
  cases Word.fits v <;> rfl

/-- A numeral is read as an address wherever one is due. -/
theorem address_of_isNumeral {slot : Slot} (hslot : slot.TakesAddress) (h : token.IsNumeral form)
    (hspelled : token.IsSpelled gr8) (hv : Text.Numeral.Denotes form token.numeral v)
    (haccepts : token.kind.isAddress = true) :
    line.address slot (token :: rest) = (do return (← line.numberOf token v, rest)) := by
  have hexpect : line.expect slot (token :: rest) = .ok (token, rest) :=
    line.expect_eq_ok.2 ⟨rfl, (hslot _).trans haccepts⟩
  simp only [address, hexpect, bind, Except.bind, line.addressOf_of_isNumeral h hspelled hv]

theorem kind_of_isConstant (h : token.IsNumeral form) (haccepts : token.kind.isConstant = true) :
    token.kind = .constant form := by
  refine h.kind.resolve_right fun hkind => ?_
  rw [hkind] at haccepts
  cases haccepts

theorem dataWords_of_isNumeral (h : token.IsNumeral form)
    (hv : Text.Numeral.Denotes form token.numeral v)
    (haccepts : token.kind.isConstant = true) :
    line.dataWords (token :: rest) = (do return ([← line.numberOf token v], rest)) := by
  have hexpect : line.expect .constant (token :: rest) = .ok (token, rest) :=
    line.expect_eq_ok.2 ⟨rfl, haccepts⟩
  simp only [dataWords, hexpect, bind, Except.bind,
    line.dataOf_of_isNumeral h (kind_of_isConstant h haccepts) hv]
  cases line.numberOf token v <;> rfl

end

end Line

/-! ## Operands -/

namespace Line

variable {line : Line} {gr8 : Bool} {token : Token} {rest : List Token} {form : ConstantForm}
  {v : Int} {column : Nat}

/-- Reading constants comes to a numeral and goes on behind it. -/
theorem exists_constants_eq_bind {front : List Token} {count : Nat}
    (h : IsConstantFront front count) (hspelled : AllSpelled gr8 (front ++ token :: rest))
    (hnumeral : token.IsNumeral form) (hv : Text.Numeral.Denotes form token.numeral v)
    (haccepts : token.kind.isConstant = true) (hbehind : line.IsBehind column rest) :
    ∃ f : Operand → Except Stop (List Operand × List Token),
      line.constants (front ++ token :: rest) = (line.numberOf token v >>= f) ∧
      ∀ o, Reads (StartsFrom column) (fun p => p.1[count]? = some o) (f o) := by
  induction h with
  | nil =>
    have hwords : line.dataWords [token] = (do return ([← line.numberOf token v], [])) :=
      line.dataWords_of_isNumeral hnumeral hv haccepts
    cases rest with
    | nil =>
      refine ⟨fun o => .ok ([o], []), ?_, fun o => rfl⟩
      rw [List.nil_append, constants, hwords]
      rfl
    | cons comma rest =>
      refine ⟨fun o => if comma.kind = .comma then
          line.constants rest >>= fun more => pure ([o] ++ more.1, more.2)
        else .ok ([o], comma :: rest), ?_, fun o => ?_⟩
      · rw [List.nil_append, constants, hwords]
        cases line.numberOf token v <;> rfl
      · dsimp only
        split
        · rename_i hcomma
          have hplace : IsPlace (comma :: rest) rest :=
            ⟨comma, by rw [hcomma]; rfl, List.suffix_refl _⟩
          have hconstants := line.reads_constants hspelled.tail hplace
          exact (hbehind.reads hconstants).bind fun _ _ => rfl
        · rfl
  | @cons first comma words tokens count data separator _ ih =>
    have hfirst : AllSpelled gr8 [first] := by
      simpa [AllSpelled] using hspelled first (.head _)
    have hwords : line.dataWords [first] = .ok (words, []) :=
      (line.dataWords_eq_ok hfirst).2 ⟨first, rfl, data⟩
    obtain ⟨f, hconstants, hf⟩ := ih hspelled.tail.tail
    refine ⟨fun o => f o >>= fun more => pure (words ++ more.1, more.2), ?_, fun o => ?_⟩
    · rw [List.cons_append, List.cons_append, constants, hwords, hconstants]
      simp only [separator, if_true, bind, Except.bind]
      cases line.numberOf token v <;> rfl
    · refine (hf o).bind ?_
      rintro ⟨more, rest⟩ hmore
      exact (List.getElem?_append_right (Nat.le_add_right _ _)).trans (by simpa using hmore)

/-- The blank before constants. -/
theorem separator_of_isConstantFront {space : Token} {front : List Token} {count : Nat}
    {slot : Slot} (blank : space.kind = .space) (h : IsConstantFront front count)
    (haccepts : token.kind.isConstant = true) :
    line.separator .space slot (space :: (front ++ token :: rest)) =
      .ok (front ++ token :: rest) := by
  cases h with
  | nil => exact line.separator_space_cons blank (endsLine_of_isConstant haccepts)
  | cons data =>
    have hends := endsLine_of_isConstant (isConstant_of_writesData data)
    exact line.separator_space_cons blank hends

/-- Reading operands comes to a numeral, which is the operand at the position, and goes on behind
the column. -/
def ReadsNumber (line : Line) (token : Token) (v : Int) (column position : Nat)
    (x : Except Stop (Operands × List Token)) : Prop :=
  ∃ f : Operand → Except Stop (Operands × List Token), x = (line.numberOf token v >>= f) ∧
    ∀ o, Reads (StartsFrom column) (fun p => p.1.emitted[position]? = some o) (f o)

section Operands

variable {m : Mnemonic} {space first comma : Token} {buffer : Operand} {r : Register}
  {bufferSlot lengthSlot : Slot} (hnumeral : token.IsNumeral form)
  (hv : Text.Numeral.Denotes form token.numeral v)

include hnumeral hv

theorem indexedAddress_of_isNumeral (hspelled : token.IsSpelled gr8)
    (haccepts : token.kind.isAddress = true) (rest : List Token) :
    line.indexedAddress (token :: rest) = (do
      let adr ← line.numberOf token v
      let x ← line.index rest
      return (adr, x.1, x.2)) := by
  rw [indexedAddress, line.address_of_isNumeral (fun _ => rfl) hnumeral hspelled hv haccepts]
  cases line.numberOf token v <;> rfl

/-- A numeral as an address. -/
theorem readsNumber_address (shape : m.shape = .address) (blank : space.kind = .space)
    (hspelled : AllSpelled gr8 (token :: rest)) (haccepts : token.kind.isAddress = true)
    (hbehind : line.IsBehind column rest) :
    line.ReadsNumber token v column 0 (line.operands m (space :: token :: rest)) := by
  have haddress :=
    line.indexedAddress_of_isNumeral hnumeral hv (hspelled token (.head _)) haccepts rest
  have hindex := hbehind.reads (line.reads_index hspelled.tail (List.suffix_refl rest))
  refine ⟨fun o => line.index rest >>= fun x => pure (.address o x.1, x.2), ?_,
    fun o => hindex.bind fun _ _ => rfl⟩
  simp only [operands, shape, haddress,
    line.separator_space_cons blank (endsLine_of_isAddress haccepts), bind, Except.bind]
  cases line.numberOf token v with
  | error stop => rfl
  | ok o => cases line.index rest <;> rfl

/-- A numeral as the address behind a register. -/
theorem readsNumber_registerAddress
    (shape : m.shape = .registerAddress ∨ m.shape = .registerOrAddress)
    (blank : space.kind = .space) (register : first.IsRegister r) (separator : comma.kind = .comma)
    (hspelled : AllSpelled gr8 (token :: rest)) (haccepts : token.kind.isAddress = true)
    (hbehind : line.IsBehind column rest) :
    line.ReadsNumber token v column 0
      (line.operands m (space :: first :: comma :: token :: rest)) := by
  have hr : line.register .firstRegister (first :: comma :: token :: rest) =
      .ok (r, comma :: token :: rest) :=
    (line.register_eq_ok fun _ => rfl).2 ⟨first, rfl, register⟩
  have haddress :=
    line.indexedAddress_of_isNumeral hnumeral hv (hspelled token (.head _)) haccepts rest
  have hindex := hbehind.reads (line.reads_index hspelled.tail (List.suffix_refl rest))
  refine ⟨fun o => line.index rest >>= fun x => pure (.registerAddress r o x.1, x.2), ?_,
    fun o => hindex.bind fun _ _ => rfl⟩
  rcases shape with shape | shape <;>
  · simp only [operands, shape, hr, haddress, haccepts, if_true, next_cons,
      line.separator_space_cons blank (endsLine_of_isRegister register),
      line.separator_comma_cons separator, bind, Except.bind]
    cases line.numberOf token v with
    | error stop => rfl
    | ok o => cases line.index rest <;> rfl

/-- A numeral as the buffer. -/
theorem readsNumber_buffer (hslot : bufferSlot.TakesAddress) (hlength : lengthSlot.TakesAddress)
    (hpart : lengthSlot.IsPart) (blank : space.kind = .space)
    (hspelled : AllSpelled gr8 (token :: rest)) (haccepts : token.kind.isAddress = true)
    (hbehind : line.IsBehind column rest) :
    line.ReadsNumber token v column 0
      (line.buffer bufferSlot lengthSlot (space :: token :: rest)) := by
  refine ⟨fun o => do
    let tokens ← line.separator .comma lengthSlot rest
    let length ← line.address lengthSlot tokens
    return (.buffer o length.1, length.2), ?_, fun o => ?_⟩
  · rw [Line.buffer, line.separator_space_cons blank (endsLine_of_isAddress haccepts)]
    simp only [line.address_of_isNumeral hslot hnumeral (hspelled token (.head _)) hv haccepts,
      bind, Except.bind]
    cases line.numberOf token v <;> rfl
  · have hcomma := line.reads_separator (.inr rfl) hpart (List.suffix_refl rest)
    refine (hbehind.reads hcomma).bind fun tokens hplace => ?_
    have haddress := line.reads_address hspelled.tail hlength hpart hplace
    exact (hbehind.reads haddress).bind fun _ _ => rfl

/-- A numeral as the length of a buffer. -/
theorem readsNumber_length (hbuffer : bufferSlot.TakesAddress) (hslot : lengthSlot.TakesAddress)
    (hspelled : AllSpelled gr8 (space :: first :: comma :: token :: rest))
    (blank : space.kind = .space) (address : first.WritesAddress buffer)
    (separator : comma.kind = .comma) (haccepts : token.kind.isAddress = true) :
    line.ReadsNumber token v column 1
      (line.buffer bufferSlot lengthSlot (space :: first :: comma :: token :: rest)) := by
  have hfirst := endsLine_of_isAddress (isAddress_of_writesAddress address)
  have hadr : line.address bufferSlot (first :: comma :: token :: rest) =
      .ok (buffer, comma :: token :: rest) :=
    (line.address_eq_ok hbuffer hspelled.tail).2 ⟨first, rfl, address⟩
  have htoken : token.IsSpelled gr8 := hspelled token (by simp)
  refine ⟨fun o => .ok (.buffer buffer o, rest), ?_, fun o => rfl⟩
  simp only [Line.buffer, line.separator_space_cons blank hfirst, hadr,
    line.separator_comma_cons separator,
    line.address_of_isNumeral hslot hnumeral htoken hv haccepts, bind, Except.bind]
  cases line.numberOf token v <;> rfl

/-- A numeral as a constant. -/
theorem readsNumber_constants {front : List Token} {count : Nat} (shape : m.shape = .constants)
    (blank : space.kind = .space) (hfront : IsConstantFront front count)
    (hspelled : AllSpelled gr8 (front ++ token :: rest)) (haccepts : token.kind.isConstant = true)
    (hbehind : line.IsBehind column rest) :
    line.ReadsNumber token v column count
      (line.operands m (space :: (front ++ token :: rest))) := by
  obtain ⟨f, hconstants, hf⟩ :=
    exists_constants_eq_bind hfront hspelled hnumeral hv haccepts hbehind
  refine ⟨fun o => f o >>= fun words => pure (.constants words.1, words.2), ?_,
    fun o => (hf o).bind fun _ hwords => hwords⟩
  simp only [operands, shape, separator_of_isConstantFront blank hfront haccepts, hconstants, bind,
    Except.bind]
  cases line.numberOf token v <;> rfl

end Operands

/-- Reading operands comes to a numeral and goes on behind it. -/
theorem readsNumber_of_leads {m : Mnemonic} {front : List Token} {role : Role} {position : Nat}
    (h : Leads m front role) (hposition : role.position? = some position)
    (hspelled : AllSpelled gr8 (front ++ token :: rest)) (hnumeral : token.IsNumeral form)
    (hv : Text.Numeral.Denotes form token.numeral v) (haccepts : role.accepts token.kind = true)
    (hbehind : line.IsBehind column rest) :
    line.ReadsNumber token v column position (line.operands m (front ++ token :: rest)) := by
  have hbehindToken : AllSpelled gr8 (token :: rest) := fun t ht =>
    hspelled t (List.mem_append_right front ht)
  cases h with
  | address shape blank =>
    cases hposition
    rcases shape with shape | shape
    · exact readsNumber_address hnumeral hv shape blank hbehindToken haccepts hbehind
    · simp only [operands, shape]
      split <;>
      exact readsNumber_buffer hnumeral hv (fun _ => rfl) (fun _ => rfl) ⟨⟨_, rfl⟩, rfl⟩ blank
        hbehindToken haccepts hbehind
  | registerAddress shape blank register separator =>
    cases hposition
    exact readsNumber_registerAddress hnumeral hv shape blank register separator hbehindToken
      haccepts hbehind
  | length shape blank address separator =>
    cases hposition
    simp only [operands, shape]
    split <;>
    exact readsNumber_length hnumeral hv (fun _ => rfl) (fun _ => rfl) hspelled blank address
      separator haccepts
  | constant shape blank hfront =>
    cases hposition
    exact readsNumber_constants hnumeral hv shape blank hfront hspelled.tail haccepts hbehind
  | wordCount => cases hposition

theorem operands_of_wordCount (line : Line) {m : Mnemonic} {space : Token}
    (shape : m.shape = .wordCount) (blank : space.kind = .space)
    (hends : token.kind.endsLine = false) :
    line.operands m (space :: token :: rest) = (do
      let (count, tokens) ← line.wordCount (token :: rest)
      return (.wordCount count, tokens)) := by
  simp only [operands, shape, line.separator_space_cons blank hends, bind, Except.bind]

/-- A statement is read after its head and its name by reading the operands. -/
theorem statement_of_isHead (line : Line) {head after : List Token} {label : Option String}
    {name : Token} {m : Mnemonic} (isHead : IsHead head label) (kind : name.kind = .mnemonic)
    (row : Mnemonic.ofName? name.text = some m) (bare : head = [] → ¬ FollowLabel after) :
    line.statement (head ++ name :: after) = (do
      let (operands, tokens) ← line.operands m after
      return (⟨label, m, operands⟩, tokens)) := by
  have hname : line.expect .mnemonic (name :: after) = .ok (name, after) :=
    line.expect_eq_ok.2 ⟨rfl, beq_iff_eq.2 kind⟩
  simp only [statement, line.label_of_isHead isHead kind bare, hname, row, bind, Except.bind]

end Line

/-! ## Lines -/

theorem code_of_fillers {rs : List Record} {count : Nat}
    (h : rs.map (·.body) = List.replicate count (.operation 0 none none none)) :
    Image.code rs = .ok (List.replicate count 0) := by
  induction rs generalizing count with
  | nil =>
    cases count with
    | zero => rfl
    | succ count => cases h
  | cons r rs ih =>
    cases count with
    | zero => cases h
    | succ count =>
      obtain ⟨hbody, hrest⟩ := List.cons.inj h
      dsimp only at hbody
      have hwords : r.words = .ok [0] := by
        rw [Record.words, hbody]
        rfl
      exact Image.code_cons_eq_ok.2 ⟨[0], _, hwords, ih hrest, rfl⟩

/-- The records of reserved storage are as many words as were asked for, all of them zero. -/
theorem HasBodies.reserved {m : Mnemonic} {count : Nat} {bodies : List Body}
    (h : HasBodies m (.wordCount count) bodies) {rs : List Record}
    (hbodies : rs.map (·.body) = bodies) :
    Image.code rs = .ok (List.replicate count 0) ∧ Layout.byteLength rs = 2 * count := by
  have hlength : Layout.byteLength rs = (bodies.map fun b => b.byteLength?.getD 0).sum := by
    rw [Layout.byteLength, Tally.total_eq_sum, ← hbodies, List.map_map]
    rfl
  cases h with
  | labelOnly =>
    obtain ⟨r, rs, rfl, hbody, hnil⟩ := List.map_eq_cons_iff.1 hbodies
    cases List.map_eq_nil_iff.1 hnil
    refine ⟨Image.code_cons_eq_ok.2 ⟨[], [], ?_, Image.code_nil_eq_ok.2 rfl, rfl⟩, hlength⟩
    rw [Record.words, hbody]
  | fillers =>
    refine ⟨code_of_fillers hbodies, ?_⟩
    rw [hlength, List.map_replicate, List.sum_replicate_nat, Nat.mul_comm]
    rfl

section Lines

variable {gr8 : Bool} {number : Nat} {tokens : List Token}

theorem read_of_problem {d : Diagnostic} (hbegin : atEnd tokens = false)
    (h : (Line.ofTokens number tokens).statement tokens = .error (.problem d)) :
    read number tokens = .ok ⟨[], [d]⟩ := by
  simp only [read, hbegin, h, Bool.false_eq_true, if_false]

/-- A statement that is read gives records, whatever follows it. -/
theorem exists_read_of_statement (hspelled : AllSpelled gr8 tokens) (hbegin : atEnd tokens = false)
    {s : Statement} {rest : List Token}
    (hs : (Line.ofTokens number tokens).statement tokens = .ok (s, rest)) :
    ∃ reading bodies, read number tokens = .ok reading ∧ reading.HasOutcome .accepted ∧
      HasBodies s.mnemonic s.operands bodies ∧ reading.records.map (·.body) = bodies := by
  have hreads := (Line.ofTokens number tokens).reads_statement hspelled hbegin
  rw [hs] at hreads
  obtain ⟨hwf, -⟩ := hreads
  obtain ⟨bodies, hbodies, hall⟩ := exists_bodies hwf
  have hhas := bodies_eq_ok_iff.1 hbodies
  have hne := recordsOf_ne_nil (s := s) hall.nonempty number tokens
  refine ⟨_, bodies, ?_, hasOutcome_accepted hne (Line.ofTokens number tokens) rest, hhas,
    map_body_recordsOf s number tokens bodies⟩
  simp only [read, hbegin, hs, records_eq_recordsOf hwf hhas, bind, Except.bind, pure,
    Except.pure, Bool.false_eq_true, if_false]

/-- The outcome of a line with a numeral as an operand. -/
theorem takesNumber_of_bind (hspelled : AllSpelled gr8 tokens) (hbegin : atEnd tokens = false)
    {role : Role} {position : Nat} (hposition : role.position? = some position) {token : Token}
    {v : Int} {f : Operand → Except Stop (Statement × List Token)}
    (hs : (Line.ofTokens number tokens).statement tokens =
      ((Line.ofTokens number tokens).numberOf token v >>= f))
    (hf : ∀ o, Reads (StartsFrom (token.span.start + 1))
      (fun p => p.1.operands.emitted[position]? = some o) (f o)) :
    ∃ reading, read number tokens = .ok reading ∧
      TakesNumber number tokens token v role reading := by
  rw [Line.numberOf] at hs
  by_cases hfits : Word.fits v = true
  · obtain ⟨lower, upper⟩ := Word.fits_iff.1 hfits
    rw [if_pos hfits] at hs
    replace hs : (Line.ofTokens number tokens).statement tokens = f (token.numberOperand v) := hs
    have hreads := hf (token.numberOperand v)
    rw [← hs] at hreads
    cases hresult : (Line.ofTokens number tokens).statement tokens with
    | ok result =>
      obtain ⟨s, rest⟩ := result
      rw [hresult] at hreads
      obtain ⟨reading, bodies, hread, houtcome, hbodies, hrecords⟩ :=
        exists_read_of_statement hspelled hbegin hresult
      refine ⟨reading, hread, .operand lower upper houtcome hposition ?_⟩
      have hoperands := hbodies.operands_eq
      rw [← hrecords, List.flatMap_map] at hoperands
      exact (congrArg (·[position]?) hoperands).trans hreads
    | error stop =>
      cases stop with
      | problem d =>
        rw [hresult] at hreads
        refine ⟨_, read_of_problem hbegin hresult, .later lower upper hposition hreads ?_⟩
        intro s hline
        obtain ⟨rest, hok, -⟩ := statement_of_isLine hspelled (Line.ofTokens number tokens) hline
        rw [hresult] at hok
        cases hok
      | fault e =>
        rw [hresult] at hreads
        exact hreads.elim
  · rw [if_neg hfits] at hs
    refine ⟨_, read_of_problem hbegin hs, .outOfRange ?_⟩
    rw [Word.fits_iff] at hfits
    omega

/-- The outcome of a line with a numeral as a number of words. -/
theorem takesNumber_of_wordCount (hspelled : AllSpelled gr8 tokens) (hbegin : atEnd tokens = false)
    {token : Token} {v : Int} {label : Option String} {m : Mnemonic} {rest : List Token}
    (hkind : token.kind = .constant .decimal) {form : ConstantForm}
    (hv : Text.Numeral.Denotes form token.numeral v)
    (hs : (Line.ofTokens number tokens).statement tokens = (do
      let (count, tokens) ← (Line.ofTokens number tokens).wordCount (token :: rest)
      return (⟨label, m, .wordCount count⟩, tokens))) :
    ∃ reading, read number tokens = .ok reading ∧
      TakesNumber number tokens token v .wordCount reading := by
  rw [Line.wordCount_of_denotes _ hkind hv] at hs
  by_cases hfits : Word.fits v = true
  · obtain ⟨lower, upper⟩ := Word.fits_iff.1 hfits
    rw [if_pos hfits] at hs
    by_cases hsign : v < 0
    · rw [if_pos hsign] at hs
      exact ⟨_, read_of_problem hbegin hs, .negative lower hsign⟩
    · rw [if_neg hsign] at hs
      obtain ⟨reading, bodies, hread, houtcome, hbodies, hrecords⟩ :=
        exists_read_of_statement hspelled hbegin hs
      obtain ⟨hcode, hlength⟩ := HasBodies.reserved hbodies hrecords
      exact ⟨reading, hread, .reserved (Int.not_lt.1 hsign) upper houtcome hcode hlength⟩
  · rw [if_neg hfits] at hs
    refine ⟨_, read_of_problem hbegin hs, .outOfRange ?_⟩
    rw [Word.fits_iff] at hfits
    omega

/-- A numeral that a line comes to decides the line, as far as the rest of it is right. -/
theorem exists_takesNumber {source : String} (hscan : Token.scan gr8 number source = .ok tokens)
    {role : Role} {token : Token} {rest : List Token}
    (hreaches : Reaches tokens role (token :: rest)) {form : ConstantForm}
    (hnumeral : token.IsNumeral form) (haccepts : role.accepts token.kind = true) {v : Int}
    (hv : Text.Numeral.Denotes form token.numeral v) :
    ∃ reading, read number tokens = .ok reading ∧
      TakesNumber number tokens token v role reading := by
  have hspelled : AllSpelled gr8 tokens := Token.spelled_of_scan hscan
  cases hreaches with
  | @mk head front _ label name m _ isHead kind row leads bare =>
    have hbegin : atEnd (head ++ name :: (front ++ token :: rest)) = false :=
      atEnd_of_isHead isHead kind
    have hafter : AllSpelled gr8 (front ++ token :: rest) :=
      fun t ht => hspelled t (List.mem_append_right _ (.tail _ ht))
    have hsplit : head ++ name :: (front ++ token :: rest) =
        (head ++ name :: front) ++ token :: rest := by simp
    have hstatement :=
      (Line.ofTokens number (head ++ name :: (front ++ token :: rest))).statement_of_isHead isHead
        kind row bare
    cases hposition : role.position? with
    | some position =>
      have hbehind : (Line.ofTokens number (head ++ name :: (front ++ token :: rest))).IsBehind
          (token.span.start + 1) rest := by
        rw [hsplit] at hscan ⊢
        refine Line.isBehind_ofTokens hscan fun hend => ?_
        rcases hnumeral.kind with hkind | hkind <;> rw [hend] at hkind <;> cases hkind
      obtain ⟨f, hoperands, hf⟩ :=
        Line.readsNumber_of_leads leads hposition hafter hnumeral hv haccepts hbehind
      rw [hoperands, bind_assoc] at hstatement
      refine takesNumber_of_bind hspelled hbegin hposition hstatement fun o => ?_
      exact (hf o).bind fun _ hoperand => hoperand
    | none =>
      cases leads with
      | @wordCount space shape blank =>
        have hkind : token.kind = .constant .decimal := beq_iff_eq.1 haccepts
        have hends : token.kind.endsLine = false := by rw [hkind]; rfl
        rw [List.cons_append, List.nil_append] at hstatement hspelled hbegin ⊢
        rw [Line.operands_of_wordCount _ shape blank hends, bind_assoc] at hstatement
        exact takesNumber_of_wordCount hspelled hbegin hkind hv hstatement
      | _ => cases hposition

end Lines

end Statement

namespace Assembly

/-- A numeral means the number that it denotes, however many digits it has. A number that does not
fit in a word is an error, which quotes the numeral, and so is a number of words below zero. Any
other number of words is reserved. An operand is kept through all phases, and its word is the number
modulo 65536. A reader with a register of 64 bits would accept the same numbers. -/
theorem exists_denoted_number {gr8 : Bool} {number : Nat} {source : String}
    {tokens rest : List Token} {role : Statement.Role} {token : Token} {form : ConstantForm}
    (hscan : Token.scan gr8 number source = .ok tokens)
    (hreaches : Statement.Reaches tokens role (token :: rest)) (hnumeral : token.IsNumeral form)
    (haccepts : role.accepts token.kind = true) :
    ∃ v reading, Text.Numeral.Denotes form token.numeral v ∧
      (Text.Numeral.registerValue? token.numeral).filter Word.fits =
        (if -32768 ≤ v ∧ v ≤ 65535 then some v else none) ∧
      readLine gr8 number source = .ok reading ∧
      Statement.TakesNumber number tokens token v role reading ∧
      ∀ (options : Options) (lines : List String), options.gr8 = gr8 →
        lines[number]? = some source → ∃ a before, analyze options lines = .ok a ∧
          readLines gr8 (lines.take number) = .ok before ∧
          ∀ i j r, reading.records[i]? = some r →
            r.operands[j]? = some (token.numberOperand v) →
            ∃ q, a.records[before.records.length + i]? = some q ∧
              Carries a q j (token.numberOperand v) := by
  have htoken : token ∈ tokens := by
    cases hreaches
    simp
  obtain ⟨v, hv⟩ := hnumeral.exists_denotes (Token.spelled_of_scan hscan token htoken)
  obtain ⟨reading, hread, htakes⟩ :=
    Statement.exists_takesNumber hscan hreaches hnumeral haccepts hv
  have hline : readLine gr8 number source = .ok reading := by
    rw [readLine_eq, readNonblank, hscan]
    exact hread
  refine ⟨v, reading, hv, ?_, hline, htakes, ?_⟩
  · rw [Text.Numeral.filter_registerValue?, hv.value?_eq, Option.filter_some]
    simp only [Word.fits_iff]
  · rintro options lines rfl hsource
    obtain ⟨a, before, hanalyze, hbefore, hcarries⟩ := exists_carries options hsource hline
    exact ⟨a, before, hanalyze, hbefore, fun i j r => hcarries i j r _⟩

/-- A literal with more digits than numbers of 64 bits have. -/
def longLiteral : String := " LD GR1,=-00000000000000000000032768,GR2"

/-- The token of the literal in the second line of a program. -/
def longToken : Token := ⟨"=-00000000000000000000032768", .literal .decimal, 1, 8, 36⟩

/-- The literal is the least number that fits in a word, and its data is the word `8000`. -/
theorem exists_denoted_number_longLiteral :
    ∃ tokens rest : List Token, Token.scan false 1 longLiteral = .ok tokens ∧
      Statement.Reaches tokens (.address 0) (longToken :: rest) ∧ longToken.IsNumeral .decimal ∧
      (Statement.Role.address 0).accepts longToken.kind = true ∧
      ∃ reading a q g, Text.Numeral.Denotes .decimal longToken.numeral (-32768) ∧
        readLine false 1 longLiteral = .ok reading ∧
        Statement.TakesNumber 1 tokens longToken (-32768) (.address 0) reading ∧
        analyze {} ["MAIN START", longLiteral, " END"] = .ok a ∧ q ∈ a.records ∧
        Carries a q 0 (longToken.numberOperand (-32768)) ∧ g ∈ a.generated ∧
        g.words = .ok [0x8000] := by
  have hrow : (Mnemonic.ofName? "LD").map (·.shape) = some .registerOrAddress := by
    decide +kernel
  obtain ⟨m, row, shape⟩ := Option.map_eq_some_iff.1 hrow
  obtain ⟨tokens, rest, hscan, hreaches⟩ :
      ∃ tokens rest : List Token, Token.scan false 1 longLiteral = .ok tokens ∧
        Statement.Reaches tokens (.address 0) (longToken :: rest) :=
    ⟨_, [⟨",", .comma, 1, 36, 37⟩, ⟨"GR2", .register, 1, 37, 40⟩, ⟨"", .endOfLine, 1, 40, 40⟩],
      Traversal.toOption_eq_some.1 (by decide +kernel),
      @Statement.Reaches.mk [⟨" ", .space, 1, 0, 1⟩]
        [⟨" ", .space, 1, 3, 4⟩, ⟨"GR1", .register, 1, 4, 7⟩, ⟨",", .comma, 1, 7, 8⟩] _ none
        ⟨"LD", .mnemonic, 1, 1, 3⟩ m _ (.blank rfl) rfl row
        (@Statement.Leads.registerAddress m _ _ _ .gr1 (.inr shape) rfl ⟨rfl, rfl⟩ rfl) (by simp)⟩
  have hnumeral : longToken.IsNumeral .decimal := ⟨by decide, .inr rfl⟩
  have haccepts : (Statement.Role.address 0).accepts longToken.kind = true := rfl
  obtain ⟨v, reading, hv, -, hread, htakes, hcarries⟩ :=
    exists_denoted_number hscan hreaches hnumeral haccepts
  have hvalue : Text.Numeral.value? longToken.numeral = some (-32768) := by decide +kernel
  cases hv.value?_eq.symm.trans hvalue
  obtain ⟨a, before, hanalyze, -, hcarries⟩ :=
    hcarries {} ["MAIN START", longLiteral, " END"] rfl rfl
  have hoperand : ((readLine false 1 longLiteral).toOption.bind (·.records[0]?)).bind
      (·.operands[0]?) = some (longToken.numberOperand (-32768)) := by decide +kernel
  rw [hread] at hoperand
  obtain ⟨r, hr, hoperand⟩ := Option.bind_eq_some_iff.1 hoperand
  obtain ⟨q, hq, hcarried⟩ := hcarries 0 0 r hr hoperand
  obtain ⟨g, hg, hword⟩ : ∃ g ∈ a.generated, g.words = .ok [0x8000] := by
    cases hcarried with
    | literal _ _ words =>
      obtain ⟨g, w, hg, hwords, hw⟩ := words 0 (-32768) rfl
      have hw' : w = 0x8000 := UInt16.toNat_inj.1 (Int.ofNat_inj.1 hw)
      exact ⟨g, List.mem_of_getElem? hg, hw' ▸ hwords⟩
  exact ⟨tokens, rest, hscan, hreaches, hnumeral, haccepts, reading, a, q, g, hv, hread,
    htakes, hanalyze, List.mem_of_getElem? hq, hcarried, hg, hword⟩

end Assembly

end Comet
