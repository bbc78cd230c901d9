import Comet.Proofs.Grammar

/-!
# Reading follows the grammar

Every reading function takes a front part of the tokens and leaves the rest. For each of
them there is an equivalence: it succeeds exactly if the front part is what the grammar
asks for, and then it gives what the grammar says. Where the end of a front part depends
on what follows it, the equivalence says so: an index register is absent only at the end
of a line, and constants go on as long as commas do. This file has the equivalences for
the parts of a statement.

The tokens have to be spelled as their kinds demand. Nothing else is asked of them, so
these results hold of every list of such tokens, with or without an end of line.
-/

namespace Comet

namespace Statement

/-- What is left where the operands stop. It does not matter unless something else might
have belonged to them. -/
def Operands.StopBefore (rest : List Token) : Operands → Prop
  | .address _ .none | .registerAddress _ _ .none | .entry .none => atEnd rest = true
  | .constants _ => ∀ t ∈ rest.head?, t.kind ≠ .comma
  | _ => True

namespace Line

variable {gr8 : Bool} (line : Line) {tokens rest : List Token} {token : Token}

theorem expect_eq_ok {slot : Slot} :
    line.expect slot tokens = .ok (token, rest) ↔
      tokens = token :: rest ∧ slot.accepts token.kind = true := by
  rw [expect]
  cases tokens with
  | nil => simp [next, Token.atLineEnd, Token.ofText, slot.accepts_endOfLine, problemFrom]
  | cons first tokens =>
    rw [next_cons, List.tail_cons]
    by_cases haccepts : slot.accepts first.kind = true
    · rw [if_pos haccepts]
      constructor
      · rintro ⟨⟩
        exact ⟨rfl, haccepts⟩
      · rintro ⟨⟨⟩, -⟩
        rfl
    · rw [if_neg haccepts]
      constructor
      · rintro ⟨⟩
      · rintro ⟨⟨⟩, h⟩
        exact absurd h haccepts

theorem separator_eq_ok {mark slot : Slot} :
    line.separator mark slot tokens = .ok rest ↔ atEnd tokens = false ∧
      ∃ token, tokens = token :: rest ∧ mark.accepts token.kind = true := by
  rw [separator]
  split
  · rename_i hend
    simp [problemFrom, hend]
  · rename_i hend
    rw [Traversal.bind_eq_ok, Prod.exists]
    simp only [expect_eq_ok, Bool.not_eq_true] at hend ⊢
    constructor
    · rintro ⟨token, rest, h, ⟨⟩⟩
      exact ⟨hend, token, h⟩
    · rintro ⟨-, token, h⟩
      exact ⟨token, rest, h, rfl⟩

/-- The blank before operands. What stands next is an operand, not the end of the line. -/
theorem separator_space_eq_ok {slot : Slot} :
    line.separator .space slot tokens = .ok (token :: rest) ↔
      token.kind.endsLine = false ∧
        ∃ space, tokens = space :: token :: rest ∧ space.kind = .space := by
  rw [separator_eq_ok]
  simp only [Slot.accepts, beq_iff_eq]
  constructor
  · rintro ⟨hend, space, rfl, hspace⟩
    rw [atEnd_cons_space hspace] at hend
    exact ⟨hend, space, rfl, hspace⟩
  · rintro ⟨hends, space, rfl, hspace⟩
    exact ⟨(atEnd_cons_space hspace token rest).trans hends, space, rfl, hspace⟩

theorem separator_comma_eq_ok {slot : Slot} :
    line.separator .comma slot tokens = .ok rest ↔
      ∃ comma, tokens = comma :: rest ∧ comma.kind = .comma := by
  rw [separator_eq_ok]
  simp only [Slot.accepts, beq_iff_eq]
  constructor
  · rintro ⟨-, h⟩
    exact h
  · rintro ⟨comma, rfl, hcomma⟩
    exact ⟨atEnd_cons_comma hcomma rest, comma, rfl, hcomma⟩

/-! ## The meaning of a token -/

theorem value_eq_ok {numeral : List Char} {value : Int} :
    line.value token numeral = .ok value ↔
      Text.Numeral.value? numeral = some value ∧ -32768 ≤ value ∧ value ≤ 65535 := by
  rw [Line.value, ← Word.fits_iff, ← Option.filter_eq_some_iff]
  cases (Text.Numeral.value? numeral).filter Word.fits with
  | none => simp [problem]
  | some v => simp

theorem string_eq_ok {cs : List Char} {words : List Int}
    (closed : cs.getLast? = some Text.Quoted.quote) :
    line.string token (Text.Quoted.quote :: cs) = .ok words ↔
      Token.WritesConstant .string (Text.Quoted.quote :: cs) words := by
  have hcs : cs = cs.dropLast ++ [Text.Quoted.quote] :=
    (List.dropLast_append_getLast? _ closed).symm
  rw [string, inside?_quoted closed, Token.writesConstant_string_iff]
  generalize cs.dropLast = inside at hcs
  subst hcs
  simp only [List.cons.injEq, List.append_cancel_right_eq, true_and,
    ← Text.Quoted.undouble?_eq_some_iff]
  cases Text.Quoted.undouble? inside with
  | none => simp [problem]
  | some text =>
    cases text with
    | nil => simp [problem]
    | cons c text =>
      simp only [Option.some.injEq, exists_and_left, ↓existsAndEq, ne_eq, reduceCtorEq,
        not_false_eq_true, true_and]
      cases Charset.encode? (c :: text) <;> simp [problem, eq_comm]

theorem constant_eq_ok {form : ConstantForm} {text : List Char} {words : List Int}
    (h : Token.IsConstant form text) :
    line.constant token form text = .ok words ↔ Token.WritesConstant form text words := by
  have hnumber (hform : form ≠ .string) : (do return [← line.value token text]) = .ok words ↔
      Token.WritesConstant form text words := by
    rw [Traversal.bind_pure_eq_ok, Token.writesConstant_number_iff hform]
    simp only [value_eq_ok]
  cases form with
  | decimal => exact hnumber (by simp)
  | hex => exact hnumber (by simp)
  | string =>
    cases h with
    | string closed => exact line.string_eq_ok closed

/-- A name is a symbol unless it is reserved for a register. -/
theorem isSymbol_iff (h : token.kind = .label ∨ token.kind = .mnemonic) :
    token.IsSymbol ↔ Register.isName token.text = false := by
  rw [Register.isName_eq_false_iff]
  exact ⟨fun hsymbol => hsymbol.unreserved, fun hunreserved => ⟨h, hunreserved⟩⟩

theorem symbol_eq_ok {operand : Operand} (h : token.kind = .label ∨ token.kind = .mnemonic) :
    line.symbol token = .ok operand ↔
      token.IsSymbol ∧ operand = .symbol token.text token.span := by
  rw [symbol, isSymbol_iff h]
  cases Register.isName token.text with
  | true => simp [problem]
  | false => simp [eq_comm]

/-- A name is an address only as a symbol. -/
theorem writesAddress_iff_of_name {operand : Operand}
    (h : token.kind = .label ∨ token.kind = .mnemonic) :
    token.WritesAddress operand ↔
      token.IsSymbol ∧ operand = .symbol token.text token.span := by
  constructor
  · intro hwrites
    cases hwrites with
    | number kind => simp [kind] at h
    | symbol symbol => exact ⟨symbol, rfl⟩
    | literal kind => simp [kind] at h
  · rintro ⟨hsymbol, rfl⟩
    exact .symbol hsymbol

theorem writesAddress_iff_of_constant {operand : Operand} {form : ConstantForm}
    (h : token.kind = .constant form) :
    token.WritesAddress operand ↔ form ≠ .string ∧
      ∃ value, Token.WritesConstant form token.text.toList [value] ∧ operand = .resolved value := by
  constructor
  · intro hwrites
    cases hwrites with
    | number kind number constant =>
      cases h.symm.trans kind
      exact ⟨number, _, constant, rfl⟩
    | symbol symbol => simpa [h] using symbol.kind
    | literal kind => simp [kind] at h
  · rintro ⟨number, value, constant, rfl⟩
    exact .number h number constant

theorem writesAddress_iff_of_literal {operand : Operand} {form : ConstantForm} {cs : List Char}
    (h : token.kind = .literal form) (htext : token.text.toList = '=' :: cs) :
    token.WritesAddress operand ↔ ∃ words, Token.WritesConstant form cs words ∧
      operand = .literal ⟨token.text, words⟩ token.span := by
  constructor
  · intro hwrites
    cases hwrites with
    | number kind => simp [kind] at h
    | symbol symbol => simpa [h] using symbol.kind
    | literal kind text constant =>
      cases h.symm.trans kind
      cases htext.symm.trans text
      exact ⟨_, constant, rfl⟩
  · rintro ⟨words, constant, rfl⟩
    exact .literal h htext constant

theorem addressOf_eq_ok {operand : Operand} (h : token.IsSpelled gr8)
    (hkind : token.kind.isAddress = true) :
    line.addressOf token = .ok operand ↔ token.WritesAddress operand := by
  cases hk : token.kind with
  | label =>
    rw [writesAddress_iff_of_name (.inl hk), ← line.symbol_eq_ok (.inl hk)]
    simp only [addressOf, hk]
  | mnemonic =>
    rw [writesAddress_iff_of_name (.inr hk), ← line.symbol_eq_ok (.inr hk)]
    simp only [addressOf, hk]
  | constant form =>
    rw [writesAddress_iff_of_constant hk]
    have hnumber (hform : form ≠ .string) :
        (do return .resolved (← line.value token token.text.toList)) = Except.ok operand ↔
        form ≠ .string ∧ ∃ value, Token.WritesConstant form token.text.toList [value] ∧
          operand = .resolved value := by
      rw [Traversal.bind_pure_eq_ok]
      simp [value_eq_ok, Token.writesConstant_number_iff hform, hform]
    cases form with
    | decimal =>
      rw [← hnumber (by simp)]
      simp only [addressOf, hk]
    | hex =>
      rw [← hnumber (by simp)]
      simp only [addressOf, hk]
    | string => simp [hk, Token.Kind.isAddress] at hkind
  | literal form =>
    obtain ⟨cs, htext, hconstant⟩ := h.literal hk
    have hmark : afterMark? token.text.toList = some cs := by
      rw [htext, afterMark?]
      exact if_pos (by decide)
    simp only [addressOf, hk, hmark]
    rw [writesAddress_iff_of_literal hk htext, Traversal.bind_pure_eq_ok]
    simp only [line.constant_eq_ok hconstant]
  | _ => simp [hk, Token.Kind.isAddress] at hkind

theorem dataOf_eq_ok {words : List Operand} (h : token.IsSpelled gr8)
    (hkind : token.kind.isConstant = true) :
    line.dataOf token = .ok words ↔ token.WritesData words := by
  have hname (hk : token.kind = .label ∨ token.kind = .mnemonic) :
      (do return [← line.symbol token]) = Except.ok words ↔ token.WritesData words := by
    rw [Traversal.bind_pure_eq_ok]
    simp only [line.symbol_eq_ok hk]
    constructor
    · rintro ⟨operand, ⟨hsymbol, rfl⟩, rfl⟩
      exact .symbol hsymbol
    · intro hwrites
      cases hwrites with
      | constant kind => simp [kind] at hk
      | symbol symbol => exact ⟨_, ⟨symbol, rfl⟩, rfl⟩
  cases hk : token.kind with
  | label =>
    rw [← hname (.inl hk)]
    simp only [dataOf, hk]
  | mnemonic =>
    rw [← hname (.inr hk)]
    simp only [dataOf, hk]
  | constant form =>
    simp only [dataOf, hk]
    rw [Traversal.bind_pure_eq_ok]
    simp only [line.constant_eq_ok (h.constant hk)]
    constructor
    · rintro ⟨values, hvalues, rfl⟩
      exact .constant hk hvalues
    · intro hwrites
      cases hwrites with
      | constant kind constant =>
        cases hk.symm.trans kind
        exact ⟨_, constant, rfl⟩
      | symbol symbol => simpa [hk] using symbol.kind
  | _ => simp [hk, Token.Kind.isConstant] at hkind

/-! ## Operands -/

theorem register_eq_ok {slot : Slot} (hslot : slot.TakesRegister) {r : Register} :
    line.register slot tokens = .ok (r, rest) ↔
      ∃ token, tokens = token :: rest ∧ token.IsRegister r := by
  have haccepts : ∀ kind, slot.accepts kind = (kind == .register) := hslot
  rw [register, Traversal.bind_eq_ok, Prod.exists]
  simp only [expect_eq_ok, haccepts, beq_iff_eq]
  constructor
  · rintro ⟨token, rest', ⟨rfl, hkind⟩, h⟩
    cases hname : Register.ofName? token.text with
    | none => simp [hname, problemFrom] at h
    | some r' =>
      rw [hname] at h
      cases h
      exact ⟨token, rfl, hkind, Register.ofName?_eq_some_iff.1 hname⟩
  · rintro ⟨token, rfl, hkind, hname⟩
    refine ⟨token, rest, ⟨rfl, hkind⟩, ?_⟩
    rw [Register.ofName?_eq_some_iff.2 hname]
    rfl

theorem isAddress_of_writesAddress {operand : Operand} (h : token.WritesAddress operand) :
    token.kind.isAddress = true := by
  cases h with
  | @number form _ kind number => cases form <;> simp_all [Token.Kind.isAddress]
  | symbol symbol => rcases symbol.kind with kind | kind <;> simp [kind, Token.Kind.isAddress]
  | literal kind => simp [kind, Token.Kind.isAddress]

theorem isConstant_of_writesData {words : List Operand} (h : token.WritesData words) :
    token.kind.isConstant = true := by
  cases h with
  | constant kind => simp [kind, Token.Kind.isConstant]
  | symbol symbol => rcases symbol.kind with kind | kind <;> simp [kind, Token.Kind.isConstant]

theorem address_eq_ok {slot : Slot} (hslot : slot.TakesAddress) {operand : Operand}
    (h : AllSpelled gr8 tokens) :
    line.address slot tokens = .ok (operand, rest) ↔
      ∃ token, tokens = token :: rest ∧ token.WritesAddress operand := by
  have haccepts : ∀ kind, slot.accepts kind = kind.isAddress := hslot
  rw [address, Traversal.bind_eq_ok, Prod.exists]
  simp only [expect_eq_ok, haccepts, Traversal.bind_pure_eq_ok, Prod.mk.injEq]
  constructor
  · rintro ⟨token, rest', ⟨rfl, hkind⟩, operand', hoperand, rfl, rfl⟩
    exact ⟨token, rfl, (line.addressOf_eq_ok (h token (.head _)) hkind).1 hoperand⟩
  · rintro ⟨token, rfl, hwrites⟩
    have hkind := isAddress_of_writesAddress hwrites
    exact ⟨token, rest, ⟨rfl, hkind⟩, operand,
      (line.addressOf_eq_ok (h token (.head _)) hkind).2 hwrites, rfl, rfl⟩

/-- An index register is absent only at the end of the line. -/
theorem index_eq_ok {x : Option Register} :
    line.index tokens = .ok (x, rest) ↔ ∃ front, tokens = front ++ rest ∧ IsIndex front x ∧
      (x = none → atEnd rest = true) := by
  rw [index]
  split
  · rename_i hend
    constructor
    · rintro ⟨⟩
      exact ⟨[], rfl, .absent, fun _ => hend⟩
    · rintro ⟨front, rfl, hindex, -⟩
      cases hindex with
      | absent => rfl
      | present separator => simp [atEnd_cons_comma separator] at hend
  · rename_i hend
    have hslot : Slot.index.TakesRegister := fun _ => rfl
    rw [Traversal.bind_eq_ok, Prod.exists]
    simp only [expect_eq_ok, Slot.accepts, beq_iff_eq, Traversal.bind_eq_ok, Prod.exists,
      line.register_eq_ok hslot]
    constructor
    · rintro ⟨comma, rest', ⟨rfl, hcomma⟩, r, rest'', ⟨token, rfl, hregister⟩, h⟩
      split at h
      · cases h
      · rename_i hnonzero
        cases h
        exact ⟨[comma, token], rfl, .present hcomma hregister hnonzero, by simp⟩
    · rintro ⟨front, rfl, hindex, hnone⟩
      cases hindex with
      | absent => exact absurd (hnone rfl) hend
      | @present comma token r separator register nonzero =>
        refine ⟨comma, token :: rest, ⟨rfl, separator⟩, r, rest, ⟨token, rfl, register⟩, ?_⟩
        rw [if_neg nonzero]
        rfl

theorem indexedAddress_eq_ok {adr : Operand} {x : Option Register} (h : AllSpelled gr8 tokens) :
    line.indexedAddress tokens = .ok (adr, x, rest) ↔ ∃ token front,
      tokens = token :: (front ++ rest) ∧ token.WritesAddress adr ∧ IsIndex front x ∧
        (x = none → atEnd rest = true) := by
  have hslot : Slot.address.TakesAddress := fun _ => rfl
  rw [indexedAddress, Traversal.bind_eq_ok, Prod.exists]
  simp only [line.address_eq_ok hslot h, Traversal.bind_pure_eq_ok, Prod.exists,
    index_eq_ok, Prod.mk.injEq]
  constructor
  · rintro ⟨adr', rest', ⟨token, rfl, hadr⟩, x', rest'', ⟨front, rfl, hindex⟩, rfl, rfl, rfl⟩
    exact ⟨token, front, rfl, hadr, hindex⟩
  · rintro ⟨token, front, rfl, hadr, hindex⟩
    exact ⟨adr, front ++ rest, ⟨token, rfl, hadr⟩, x, rest, ⟨front, rfl, hindex⟩, rfl, rfl, rfl⟩

theorem wordCount_eq_ok {count : Nat} :
    line.wordCount tokens = .ok (count, rest) ↔ ∃ token, tokens = token :: rest ∧
      token.kind = .constant .decimal ∧
      Token.WritesConstant .decimal token.text.toList [(count : Int)] := by
  rw [wordCount, Traversal.bind_eq_ok, Prod.exists]
  simp only [expect_eq_ok, Slot.accepts, beq_iff_eq, Traversal.bind_eq_ok]
  constructor
  · rintro ⟨token, rest', ⟨rfl, hkind⟩, value, hvalue, h⟩
    split at h
    · cases h
    · rename_i hnonneg
      cases h
      obtain ⟨numeral, lower, upper⟩ := line.value_eq_ok.1 hvalue
      refine ⟨token, rfl, hkind, ?_⟩
      rw [Int.toNat_of_nonneg (Int.not_lt.1 hnonneg)]
      exact .number (by simp) numeral lower upper
  · rintro ⟨token, rfl, hkind, hwrites⟩
    cases hwrites with
    | number _ numeral lower upper =>
      refine ⟨token, rest, ⟨rfl, hkind⟩, count, line.value_eq_ok.2 ⟨numeral, lower, upper⟩, ?_⟩
      rw [if_neg (by omega)]
      rfl

theorem dataWords_eq_ok {words : List Operand} (h : AllSpelled gr8 tokens) :
    line.dataWords tokens = .ok (words, rest) ↔
      ∃ token, tokens = token :: rest ∧ token.WritesData words := by
  rw [dataWords, Traversal.bind_eq_ok, Prod.exists]
  simp only [expect_eq_ok, Slot.accepts, Traversal.bind_pure_eq_ok, Prod.mk.injEq]
  constructor
  · rintro ⟨token, rest', ⟨rfl, hkind⟩, words', hwords, rfl, rfl⟩
    exact ⟨token, rfl, (line.dataOf_eq_ok (h token (.head _)) hkind).1 hwords⟩
  · rintro ⟨token, rfl, hwrites⟩
    have hkind := isConstant_of_writesData hwrites
    exact ⟨token, rest, ⟨rfl, hkind⟩, words,
      (line.dataOf_eq_ok (h token (.head _)) hkind).2 hwrites, rfl, rfl⟩

/-- Constants go on as long as commas do. -/
theorem constants_eq_ok {words : List Operand} (h : AllSpelled gr8 tokens) :
    line.constants tokens = .ok (words, rest) ↔ ∃ front, tokens = front ++ rest ∧
      IsConstantList front words ∧ ∀ t ∈ rest.head?, t.kind ≠ .comma := by
  fun_induction constants line tokens generalizing words rest with
  | case1 =>
    rw [line.dataWords_eq_ok h]
    constructor
    · rintro ⟨token, ⟨⟩, -⟩
    · rintro ⟨front, hfront, hlist, -⟩
      cases hlist <;> cases hfront
  | case2 token =>
    rw [line.dataWords_eq_ok h]
    constructor
    · rintro ⟨_, ⟨⟩, hwrites⟩
      exact ⟨[token], rfl, .last hwrites, by simp⟩
    · rintro ⟨front, hfront, hlist, -⟩
      cases hlist with
      | last data =>
        cases hfront
        exact ⟨token, rfl, data⟩
      | more => cases hfront
  | case3 token comma tokens ih =>
    have htoken : AllSpelled gr8 [token] := by
      simpa [AllSpelled] using h token (.head _)
    rw [Traversal.bind_eq_ok, Prod.exists]
    simp only [line.dataWords_eq_ok htoken]
    -- The two cases exclude one constructor of the list each.
    by_cases hcomma : comma.kind = .comma
    · simp only [hcomma, if_true, Traversal.bind_pure_eq_ok, Prod.exists, ih h.tail.tail,
        Prod.mk.injEq]
      constructor
      · rintro ⟨first, _, ⟨_, ⟨⟩, hwrites⟩, more, _, ⟨front, rfl, hlist, hrest⟩, rfl, rfl⟩
        exact ⟨token :: comma :: front, rfl, .more hwrites hcomma hlist, hrest⟩
      · rintro ⟨front, hfront, hlist, hrest⟩
        cases hlist with
        | last data =>
          cases hfront
          exact absurd hcomma (hrest comma rfl)
        | more data separator more =>
          cases hfront
          exact ⟨_, _, ⟨token, rfl, data⟩, _, _, ⟨_, rfl, more, hrest⟩, rfl, rfl⟩
    · simp only [hcomma, if_false, pure, Except.pure, Except.ok.injEq, Prod.mk.injEq]
      constructor
      · rintro ⟨first, _, ⟨_, ⟨⟩, hwrites⟩, rfl, rfl⟩
        exact ⟨[token], rfl, .last hwrites, by simpa using hcomma⟩
      · rintro ⟨front, hfront, hlist, hrest⟩
        cases hlist with
        | last data =>
          cases hfront
          exact ⟨words, [], ⟨token, rfl, data⟩, rfl, rfl⟩
        | more data separator =>
          cases hfront
          exact absurd separator hcomma

theorem exists_space_of_separator {slot : Slot}
    (h : line.separator .space slot tokens = .ok rest) :
    ∃ space, tokens = space :: rest ∧ space.kind = .space := by
  obtain ⟨-, space, rfl, hspace⟩ := line.separator_eq_ok.1 h
  exact ⟨space, rfl, beq_iff_eq.1 hspace⟩

theorem stopBefore_address {adr : Operand} {x : Option Register}
    (h : x = none → atEnd rest = true) : (Operands.address adr x).StopBefore rest := by
  cases x with
  | none => exact h rfl
  | some r => trivial

theorem stopBefore_registerAddress {r : Register} {adr : Operand} {x : Option Register}
    (h : x = none → atEnd rest = true) : (Operands.registerAddress r adr x).StopBefore rest := by
  cases x with
  | none => exact h rfl
  | some r' => trivial

theorem endsLine_of_isAddress (h : token.kind.isAddress = true) : token.kind.endsLine = false := by
  cases hk : token.kind <;> simp_all [Token.Kind.isAddress, Token.Kind.endsLine]

theorem endsLine_of_isConstant (h : token.kind.isConstant = true) :
    token.kind.endsLine = false := by
  cases hk : token.kind <;> simp_all [Token.Kind.isConstant, Token.Kind.endsLine]

theorem endsLine_of_isRegister {r : Register} (h : token.IsRegister r) :
    token.kind.endsLine = false := by
  simp [h.kind, Token.Kind.endsLine]

theorem endsLine_of_isSymbol (h : token.IsSymbol) : token.kind.endsLine = false := by
  rcases h.kind with kind | kind <;> simp [kind, Token.Kind.endsLine]

theorem exists_cons_of_isConstantList {words : List Operand} (h : IsConstantList tokens words) :
    ∃ token rest, tokens = token :: rest ∧ token.kind.endsLine = false := by
  cases h with
  | last data => exact ⟨_, _, rfl, endsLine_of_isConstant (isConstant_of_writesData data)⟩
  | more data => exact ⟨_, _, rfl, endsLine_of_isConstant (isConstant_of_writesData data)⟩

/-- No comma stands at the end of a line. -/
theorem ne_comma_of_atEnd (h : atEnd rest = true) : ∀ t ∈ rest.head?, t.kind ≠ .comma := by
  intro t ht hcomma
  cases rest with
  | nil => cases ht
  | cons first rest =>
    cases ht
    simp [atEnd_cons_comma hcomma] at h

/-- At the end of a line all operands stop. -/
theorem stopBefore_of_atEnd (h : atEnd rest = true) (operands : Operands) :
    operands.StopBefore rest := by
  cases operands with
  | address adr x => exact stopBefore_address fun _ => h
  | registerAddress r adr x => exact stopBefore_registerAddress fun _ => h
  | entry target =>
    cases target with
    | none => exact h
    | some target => trivial
  | constants words => exact ne_comma_of_atEnd h
  | _ => trivial

theorem separator_space_cons {slot : Slot} {space : Token} (blank : space.kind = .space)
    (hends : token.kind.endsLine = false) :
    line.separator .space slot (space :: token :: rest) = .ok (token :: rest) :=
  line.separator_space_eq_ok.2 ⟨hends, space, rfl, blank⟩

theorem separator_comma_cons {slot : Slot} {comma : Token} (separator : comma.kind = .comma) :
    line.separator .comma slot (comma :: rest) = .ok rest :=
  line.separator_comma_eq_ok.2 ⟨comma, rfl, separator⟩

end Line

end Statement

end Comet
