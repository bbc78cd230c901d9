import Comet.Proofs.Reading

/-!
# The grammar of a line

A line that is neither empty nor wrong is a head, an instruction, its operands and a
trailer. The head is a label and a blank, or a blank, or nothing; the trailer is an
optional blank and an optional comment. Which operands there are is decided by the
shape of the instruction, and they are separated by commas only.

The relations of this file say which tokens write which statement, and which records a
statement denotes. None of them mentions how a line is read.
-/

namespace Comet

namespace Token

/-- The token names the register. -/
structure IsRegister (token : Token) (r : Register) : Prop where
  kind : token.kind = .register
  name : token.text = r.name

/-- The token names a label. -/
structure IsSymbol (token : Token) : Prop where
  kind : token.kind = .label ∨ token.kind = .mnemonic
  unreserved : ∀ r : Register, token.text ≠ r.name

/-- The text writes a constant with the given words. -/
inductive WritesConstant : ConstantForm → List Char → List Int → Prop
  | number {form : ConstantForm} {cs : List Char} {value : Int} (form_ne : form ≠ .string)
      (numeral : Text.Numeral.value? cs = some value) (lower : -32768 ≤ value)
      (upper : value ≤ 65535) : WritesConstant form cs [value]
  /-- A string is not empty, its quotes are doubled and its characters have codes. -/
  | string {cs : List Char} {codes : List UInt8} (nonempty : cs ≠ [])
      (charset : Charset.encode? cs = some codes) :
      WritesConstant .string (Text.Quoted.quote :: (Text.Quoted.double cs ++ [Text.Quoted.quote]))
        (codes.map fun code => (code.toNat : Int))

theorem writesConstant_number_iff {form : ConstantForm} (h : form ≠ .string) {cs : List Char}
    {words : List Int} :
    WritesConstant form cs words ↔ ∃ value, (Text.Numeral.value? cs = some value ∧
      -32768 ≤ value ∧ value ≤ 65535) ∧ words = [value] := by
  constructor
  · intro hwrites
    cases hwrites with
    | number _ numeral lower upper => exact ⟨_, ⟨numeral, lower, upper⟩, rfl⟩
    | string => exact absurd rfl h
  · rintro ⟨value, ⟨numeral, lower, upper⟩, rfl⟩
    exact .number h numeral lower upper

theorem writesConstant_string_iff {text : List Char} {words : List Int} :
    WritesConstant .string text words ↔ ∃ cs codes,
      text = Text.Quoted.quote :: (Text.Quoted.double cs ++ [Text.Quoted.quote]) ∧ cs ≠ [] ∧
        Charset.encode? cs = some codes ∧ words = codes.map fun code => (code.toNat : Int) := by
  constructor
  · intro hwrites
    cases hwrites with
    | number form_ne => exact absurd rfl form_ne
    | string nonempty charset => exact ⟨_, _, rfl, nonempty, charset, rfl⟩
  · rintro ⟨cs, codes, rfl, nonempty, charset, rfl⟩
    exact .string nonempty charset

/-- The token stands for an address. -/
inductive WritesAddress (token : Token) : Operand → Prop
  | number {form : ConstantForm} {value : Int} (kind : token.kind = .constant form)
      (number : form ≠ .string) (constant : WritesConstant form token.text.toList [value]) :
      WritesAddress token (.resolved value)
  | symbol (symbol : token.IsSymbol) : WritesAddress token (.symbol token.text token.span)
  | literal {form : ConstantForm} {cs : List Char} {words : List Int}
      (kind : token.kind = .literal form) (text : token.text.toList = '=' :: cs)
      (constant : WritesConstant form cs words) :
      WritesAddress token (.literal ⟨token.text, words⟩ token.span)

/-- The token stands for data words. -/
inductive WritesData (token : Token) : List Operand → Prop
  | constant {form : ConstantForm} {words : List Int} (kind : token.kind = .constant form)
      (constant : WritesConstant form token.text.toList words) :
      WritesData token (words.map .resolved)
  | symbol (symbol : token.IsSymbol) : WritesData token [.symbol token.text token.span]

end Token

namespace Statement

/-- An optional index register, which is not the first one. -/
inductive IsIndex : List Token → Option Register → Prop
  | absent : IsIndex [] none
  | present {comma token : Token} {r : Register} (separator : comma.kind = .comma)
      (register : token.IsRegister r) (nonzero : r ≠ .gr0) : IsIndex [comma, token] (some r)

/-- One or more constants. -/
inductive IsConstantList : List Token → List Operand → Prop
  | last {token : Token} {words : List Operand} (data : token.WritesData words) :
      IsConstantList [token] words
  | more {token comma : Token} {words words' : List Operand} {tokens : List Token}
      (data : token.WritesData words) (separator : comma.kind = .comma)
      (rest : IsConstantList tokens words') :
      IsConstantList (token :: comma :: tokens) (words ++ words')

/-- The operands of an instruction with the blank before them. -/
inductive IsOperandList (m : Mnemonic) : List Token → Operands → Prop
  | none (shape : m.shape = .none) : IsOperandList m [] .none
  | register {space token : Token} {r : Register} (shape : m.shape = .register)
      (blank : space.kind = .space) (register : token.IsRegister r) :
      IsOperandList m [space, token] (.register r)
  | address {space token : Token} {adr : Operand} {tokens : List Token} {x : Option Register}
      (shape : m.shape = .address) (blank : space.kind = .space)
      (address : token.WritesAddress adr) (index : IsIndex tokens x) :
      IsOperandList m (space :: token :: tokens) (.address adr x)
  | registerAddress {space first comma token : Token} {r : Register} {adr : Operand}
      {tokens : List Token} {x : Option Register}
      (shape : m.shape = .registerAddress ∨ m.shape = .registerOrAddress)
      (blank : space.kind = .space) (register : first.IsRegister r)
      (separator : comma.kind = .comma) (address : token.WritesAddress adr)
      (index : IsIndex tokens x) :
      IsOperandList m (space :: first :: comma :: token :: tokens) (.registerAddress r adr x)
  | registers {space first comma second : Token} {r1 r2 : Register}
      (shape : m.shape = .registerOrAddress) (blank : space.kind = .space)
      (register : first.IsRegister r1) (separator : comma.kind = .comma)
      (register' : second.IsRegister r2) :
      IsOperandList m [space, first, comma, second] (.registers r1 r2)
  | buffer {space first comma second : Token} {buffer length : Operand}
      (shape : m.shape = .buffer) (blank : space.kind = .space)
      (address : first.WritesAddress buffer) (separator : comma.kind = .comma)
      (address' : second.WritesAddress length) :
      IsOperandList m [space, first, comma, second] (.buffer buffer length)
  | noEntry (shape : m.shape = .entry) : IsOperandList m [] (.entry .none)
  | entry {space token : Token} (shape : m.shape = .entry) (blank : space.kind = .space)
      (symbol : token.IsSymbol) :
      IsOperandList m [space, token] (.entry (some (.symbol token.text token.span)))
  | wordCount {space token : Token} {count : Nat} (shape : m.shape = .wordCount)
      (blank : space.kind = .space) (kind : token.kind = .constant .decimal)
      (constant : Token.WritesConstant .decimal token.text.toList [(count : Int)]) :
      IsOperandList m [space, token] (.wordCount count)
  | constants {space : Token} {tokens : List Token} {words : List Operand}
      (shape : m.shape = .constants) (blank : space.kind = .space)
      (constants : IsConstantList tokens words) :
      IsOperandList m (space :: tokens) (.constants words)

/-- What stands before the instruction. -/
inductive IsHead : List Token → Option String → Prop
  | nothing : IsHead [] none
  | blank {space : Token} (blank : space.kind = .space) : IsHead [space] none
  | label {token space : Token} (symbol : token.IsSymbol) (blank : space.kind = .space) :
      IsHead [token, space] (some token.text)

/-- The tokens continue with a blank and an instruction, so that what stands before them is
a label, even if it is the name of an instruction. -/
def FollowLabel (tokens : List Token) : Prop :=
  ∃ space mnemonic rest, tokens = space :: mnemonic :: rest ∧ space.kind = .space ∧
    mnemonic.kind = .mnemonic

/-- An optional blank and an optional comment at the end of a line. -/
inductive IsTrailer : List Token → Prop
  | mk {blank comment : Option Token} {stop : Token} (blank_kind : ∀ t ∈ blank, t.kind = .space)
      (comment_kind : ∀ t ∈ comment, t.kind = .comment) (stop_kind : stop.kind = .endOfLine) :
      IsTrailer (blank.toList ++ comment.toList ++ [stop])

/-- The tokens of a line write the statement. -/
inductive IsLine : List Token → Statement → Prop
  | mk {head operandTokens trailer : List Token} {label : Option String} {token : Token}
      {m : Mnemonic} {operands : Operands} (isHead : IsHead head label)
      (kind : token.kind = .mnemonic) (row : Mnemonic.ofName? token.text = some m)
      (isOperandList : IsOperandList m operandTokens operands) (isTrailer : IsTrailer trailer)
      (bare : head = [] → ¬ FollowLabel (operandTokens ++ trailer)) :
      IsLine (head ++ token :: (operandTokens ++ trailer)) ⟨label, m, operands⟩

/-- What an instruction with the given operands does. -/
inductive HasBodies (m : Mnemonic) : Operands → List Body → Prop
  | operation {code : UInt8} (opcode : m.code = some code) :
      HasBodies m .none [.operation code none none none]
  | finish (directive : m.code = none) : HasBodies m .none [.finish]
  | register {code : UInt8} {r : Register} (opcode : m.code = some code) :
      HasBodies m (.register r) [.operation code (some r) none none]
  | address {code : UInt8} {adr : Operand} {x : Option Register} (opcode : m.code = some code) :
      HasBodies m (.address adr x) [.operation code none x (some adr)]
  | registerAddress {code : UInt8} {r : Register} {adr : Operand} {x : Option Register}
      (opcode : m.code = some code) :
      HasBodies m (.registerAddress r adr x) [.operation code (some r) x (some adr)]
  | registers {code : UInt8} {r1 r2 : Register} (opcode : m.code = some code) :
      HasBodies m (.registers r1 r2) [.operation (code + 4) (some r1) (some r2) none]
  | transfer {code : UInt8} {buffer length : Operand} (opcode : m.code = some code) :
      HasBodies m (.buffer buffer length) [.transfer code buffer length]
  | start {target : Option Operand} : HasBodies m (.entry target) [.start target]
  | labelOnly : HasBodies m (.wordCount 0) [.labelOnly]
  | fillers {count : Nat} (positive : 0 < count) :
      HasBodies m (.wordCount count) (List.replicate count (.operation 0 none none none))
  | data {words : List Operand} : HasBodies m (.constants words) (words.map .data)

/-- The addresses and data words among the operands of an instruction. -/
def Operands.toList : Operands → List Operand
  | .address adr _ | .registerAddress _ adr _ => [adr]
  | .buffer first second => [first, second]
  | .entry target => target.toList
  | .constants words => words
  | .none | .register _ | .registers _ _ | .wordCount _ => []

/-- The addresses and data words of the records of an instruction, by its operands. -/
def Operands.emitted : Operands → List Operand
  | .entry _ => []
  | operands => operands.toList

/-- The records of a statement have its operands. -/
theorem HasBodies.operands_eq {m : Mnemonic} {operands : Operands} {bodies : List Body}
    (h : HasBodies m operands bodies) : bodies.flatMap Body.operands = operands.emitted := by
  cases h with
  | @fillers count =>
    refine List.flatMap_eq_nil_iff.2 fun b hb => ?_
    rw [List.eq_of_mem_replicate hb]
    rfl
  | @data words =>
    rw [List.flatMap_map]
    exact List.flatMap_singleton' words
  | _ => rfl

/-- The records with the given bodies. The first one carries the label and the tokens, and
all others continue it. -/
def recordsOf (s : Statement) (line : Nat) (tokens : List Token) : List Body → List Record
  | [] => []
  | body :: bodies =>
    { label := s.label, mnemonic := s.mnemonic.name, body, line, tokens } ::
      bodies.map fun body =>
        { label := none, mnemonic := s.mnemonic.name, body, line, continuation := true }

end Statement

end Comet
