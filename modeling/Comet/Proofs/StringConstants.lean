import Comet.Assembly
import Comet.Proofs.LineGrammar

/-!
# Writing strings as constants

A string is written between quotes with its own quotes doubled. Where the constant ends
is decided by what follows a run of quotes, before the quotes are paired. A quote of the
string that stands before a comma, a semicolon or a blank therefore closes the constant
too early, and leaves it with a quote that has no partner.

All other strings of the character set can be written. A line that writes one as data
gives a word for each of its characters, and a line that refers to it as a literal gives
a literal with these words.
-/

namespace Comet

namespace Text.Quoted

/-- A quote of the string stands directly before a comma, a semicolon or a blank. -/
def QuoteBeforeSeparator (cs : List Char) : Prop :=
  ∃ front rest, cs = front ++ quote :: rest ∧ rest ≠ [] ∧ separates rest = true

theorem not_quoteBeforeSeparator_nil : ¬ QuoteBeforeSeparator [] := by
  rintro ⟨front, rest, heq, -⟩
  simp at heq

theorem quoteBeforeSeparator_cons {c : Char} {cs : List Char} :
    QuoteBeforeSeparator (c :: cs) ↔
      (c = quote ∧ cs ≠ [] ∧ separates cs = true) ∨ QuoteBeforeSeparator cs := by
  constructor
  · rintro ⟨front, rest, heq, hne, hseparates⟩
    cases front with
    | nil =>
      cases heq
      exact .inl ⟨rfl, hne, hseparates⟩
    | cons d front =>
      cases heq
      exact .inr ⟨front, rest, rfl, hne, hseparates⟩
  · rintro (⟨rfl, hne, hseparates⟩ | ⟨front, rest, rfl, hne, hseparates⟩)
    · exact ⟨[], cs, rfl, hne, hseparates⟩
    · exact ⟨c :: front, rest, rfl, hne, hseparates⟩

instance decidableQuoteBeforeSeparator : (cs : List Char) → Decidable (QuoteBeforeSeparator cs)
  | [] => isFalse not_quoteBeforeSeparator_nil
  | _ :: cs =>
    have := decidableQuoteBeforeSeparator cs
    decidable_of_iff _ quoteBeforeSeparator_cons.symm

@[simp] theorem separates_quote (cs : List Char) : separates (quote :: cs) = false := rfl

/-- A quote is followed by a separator after doubling exactly if it was before. -/
theorem separates_double_append (cs rest : List Char) :
    separates (double cs ++ quote :: rest) = true ↔ cs ≠ [] ∧ separates cs = true := by
  cases cs with
  | nil => simp [double]
  | cons c cs =>
    by_cases hc : c = quote
    · simp [double, hc]
    · simp [double, hc, separates]

theorem close?_cons_of_ne {c : Char} (h : c ≠ quote) (cs : List Char) :
    close? (c :: cs) = (close? cs).map fun (inside, rest) => (c :: inside, rest) := by
  simp [close?, h]

/-- A quote that no separator follows belongs to what is closed later. -/
theorem close?_quote_cons {cs inside rest : List Char} (h : close? cs = some (inside, rest))
    (hseparates : separates cs = false) : close? (quote :: cs) = some (quote :: inside, rest) := by
  by_cases hhead : cs.head? = some quote <;> simp [close?, hhead, hseparates, h]

theorem close?_quote_of_separates {cs : List Char} (h : separates cs = true) :
    close? (quote :: cs) = some ([quote], cs) := by
  have hhead : cs.head? ≠ some quote := by
    cases cs with
    | nil => simp
    | cons c cs =>
      rintro ⟨⟩
      cases h
  simp [close?, hhead, h]

/-- The first character of a doubled quote. -/
theorem close?_quote_quote {cs inside rest : List Char}
    (h : close? (quote :: cs) = some (inside, rest)) :
    close? (quote :: quote :: cs) = some (quote :: inside, rest) :=
  close?_quote_cons h rfl

/-- A constant is closed by its last quote if no quote of the string closes it before. -/
theorem close?_double {cs : List Char} (h : ¬ QuoteBeforeSeparator cs) {rest : List Char}
    (hrest : separates rest = true) :
    close? (double cs ++ quote :: rest) = some (double cs ++ [quote], rest) := by
  induction cs with
  | nil => exact close?_quote_of_separates hrest
  | cons c cs ih =>
    rw [quoteBeforeSeparator_cons, not_or] at h
    by_cases hc : c = quote
    · subst hc
      have hseparates : separates (double cs ++ quote :: rest) = false := by
        rw [← Bool.not_eq_true, separates_double_append]
        exact fun hs => h.1 ⟨rfl, hs⟩
      simpa [double] using close?_quote_quote (close?_quote_cons (ih h.2) hseparates)
    · simp [double, hc, close?_cons_of_ne hc, ih h.2]

/-- A quote of the string before a separator closes the constant, with one quote too many. -/
theorem exists_close?_double {cs : List Char} (h : QuoteBeforeSeparator cs) (rest : List Char) :
    ∃ front rest', close? (double cs ++ quote :: rest) =
      some (double front ++ [quote, quote], rest') := by
  induction cs with
  | nil => exact absurd h not_quoteBeforeSeparator_nil
  | cons c cs ih =>
    by_cases hc : c = quote
    · subst hc
      -- Either the second of its two quotes closes the constant, or a later quote does.
      by_cases hseparates : separates (double cs ++ quote :: rest) = true
      · exact ⟨[], _, by simpa [double] using
          close?_quote_quote (close?_quote_of_separates hseparates)⟩
      · have hlater : QuoteBeforeSeparator cs := by
          rcases quoteBeforeSeparator_cons.1 h with ⟨-, hs⟩ | hlater
          · exact absurd (separates_double_append cs rest |>.2 hs) hseparates
          · exact hlater
        obtain ⟨front, rest', hclose⟩ := ih hlater
        refine ⟨quote :: front, rest', ?_⟩
        simpa [double] using
          close?_quote_quote (close?_quote_cons hclose (Bool.not_eq_true _ ▸ hseparates))
    · have hlater := (quoteBeforeSeparator_cons.1 h).resolve_left fun hs => hc hs.1
      obtain ⟨front, rest', hclose⟩ := ih hlater
      exact ⟨c :: front, rest', by simp [double, hc, close?_cons_of_ne hc, hclose]⟩

theorem count_quote_double (cs : List Char) : (double cs).count quote = 2 * cs.count quote := by
  induction cs with
  | nil => rfl
  | cons c cs ih =>
    by_cases hc : c = quote
    · simp [double, hc, ih]
      omega
    · simp [double, hc, ih]

/-- A quote that is left alone cannot be read back. -/
theorem undouble?_double_quote (cs : List Char) : undouble? (double cs ++ [quote]) = none := by
  rw [Option.eq_none_iff_forall_ne_some]
  intro ds hds
  have hcount := congrArg (List.count quote) (eq_double_of_undouble? hds)
  rw [List.count_append, count_quote_double, count_quote_double,
    List.count_singleton_self] at hcount
  omega

end Text.Quoted

namespace Token

variable {gr8 : Bool}

/-- The tokens before the constants of a data line. -/
def dataFront (line : Nat) : List Token :=
  [ofText .space line 0 [' ', ' '], ofText .mnemonic line 2 ['D', 'C'], ofText .space line 4 [' ']]

theorem scanFrom_dataFront (line : Nat) (cs : List Char) :
    scanFrom gr8 line 0 ("  DC ".toList ++ Text.Quoted.quote :: cs) =
      (scanFrom gr8 line 5 (Text.Quoted.quote :: cs)).map (dataFront line ++ ·) := by
  have hblank : Lexeme.first? gr8 ("  DC ".toList ++ Text.Quoted.quote :: cs) =
      some ⟨.space, [' ', ' '], 'D' :: 'C' :: ' ' :: Text.Quoted.quote :: cs⟩ := rfl
  have hname : Lexeme.first? gr8 ('D' :: 'C' :: ' ' :: Text.Quoted.quote :: cs) =
      some ⟨.mnemonic, ['D', 'C'], ' ' :: Text.Quoted.quote :: cs⟩ := rfl
  have hblank' : Lexeme.first? gr8 (' ' :: Text.Quoted.quote :: cs) =
      some ⟨.space, [' '], Text.Quoted.quote :: cs⟩ := rfl
  rw [scanFrom_of_first? hblank, scanFrom_of_first? hname, scanFrom_of_first? hblank']
  show (((scanFrom gr8 line 5 _).map _).map _).map _ = _
  cases scanFrom gr8 line 5 (Text.Quoted.quote :: cs) <;> rfl

/-- The tokens before the address of a line that loads a register. -/
def loadFront (line : Nat) : List Token :=
  [ofText .space line 0 [' ', ' '], ofText .mnemonic line 2 ['L', 'D'], ofText .space line 4 [' '],
    ofText .register line 5 ['G', 'R', '1'], ofText .comma line 8 [',']]

theorem scanFrom_loadFront (line : Nat) (cs : List Char) :
    scanFrom gr8 line 0 ("  LD GR1,".toList ++ '=' :: cs) =
      (scanFrom gr8 line 9 ('=' :: cs)).map (loadFront line ++ ·) := by
  have hblank : Lexeme.first? gr8 ("  LD GR1,".toList ++ '=' :: cs) =
      some ⟨.space, [' ', ' '], "LD GR1,".toList ++ '=' :: cs⟩ := rfl
  have hname : Lexeme.first? gr8 ("LD GR1,".toList ++ '=' :: cs) =
      some ⟨.mnemonic, ['L', 'D'], " GR1,".toList ++ '=' :: cs⟩ := rfl
  have hblank' : Lexeme.first? gr8 (" GR1,".toList ++ '=' :: cs) =
      some ⟨.space, [' '], "GR1,".toList ++ '=' :: cs⟩ := rfl
  have hregister : Lexeme.first? gr8 ("GR1,".toList ++ '=' :: cs) =
      some ⟨.register, ['G', 'R', '1'], ",".toList ++ '=' :: cs⟩ := by
    cases gr8 <;> rfl
  have hcomma : Lexeme.first? gr8 (",".toList ++ '=' :: cs) = some ⟨.comma, [','], '=' :: cs⟩ := rfl
  rw [scanFrom_of_first? hblank, scanFrom_of_first? hname, scanFrom_of_first? hblank',
    scanFrom_of_first? hregister, scanFrom_of_first? hcomma]
  show (((((scanFrom gr8 line 9 _).map _).map _).map _).map _).map _ = _
  cases scanFrom gr8 line 9 ('=' :: cs) <;> rfl

theorem Lexeme.first?_string {cs inside rest : List Char}
    (h : Text.Quoted.close? cs = some (inside, rest)) :
    first? gr8 (Text.Quoted.quote :: cs) =
      some ⟨.constant .string, Text.Quoted.quote :: inside, rest⟩ := by
  show (Text.Quoted.close? cs).map _ = _
  rw [h]
  rfl

theorem Lexeme.first?_stringLiteral {cs inside rest : List Char}
    (h : Text.Quoted.close? cs = some (inside, rest)) :
    first? gr8 ('=' :: Text.Quoted.quote :: cs) =
      some ⟨.literal .string, '=' :: Text.Quoted.quote :: inside, rest⟩ := by
  show ((Text.Quoted.close? cs).map _).map _ = _
  rw [h]
  rfl

end Token

namespace Statement

open Text.Quoted (quote double QuoteBeforeSeparator)

/-- The line was read into nothing but an error. -/
def Reading.IsRejected (reading : Reading) : Prop :=
  ∃ d, reading = ⟨[], [d]⟩ ∧ d.severity = .error

/-- Every character was stored as a word of its own. -/
structure Reading.Stores (reading : Reading) (codes : List UInt8) : Prop where
  bodies : reading.records.map (·.body) = codes.map fun code => .data (.resolved code.toNat)
  directive : ∀ r ∈ reading.records, r.mnemonic = "DC" ∧ r.label = none
  diagnostics : reading.diagnostics = []

/-- The line loads the first general register from a literal with one word for every
character. -/
def Reading.Loads (reading : Reading) (codes : List UInt8) : Prop :=
  ∃ r text span, reading = ⟨[r], []⟩ ∧ r.mnemonic = "LD" ∧ r.label = none ∧
    r.body = .operation 0x10 (some .gr1) none
      (some (.literal ⟨text, codes.map fun code => (code.toNat : Int)⟩ span))

theorem isRejected_read {number : Nat} {tokens : List Token} {span : Span}
    (kind : Diagnostic.Kind) (herror : kind.severity = .error) (hend : atEnd tokens = false)
    (h : (Line.ofTokens number tokens).statement tokens =
      (Line.ofTokens number tokens).problem span kind) :
    ∃ reading, read number tokens = .ok reading ∧ reading.IsRejected := by
  refine ⟨⟨[], [⟨⟨number, span⟩, kind⟩]⟩, ?_, _, rfl, herror⟩
  rw [Line.problem] at h
  simp only [read, hend, h, Bool.false_eq_true, if_false]
  rfl

namespace Line

variable (line : Line) {token : Token} {rest : List Token} {stop : Stop}

/-- A string constant that is closed too early has a quote without a partner. -/
theorem string_of_closed_early (front : List Char) :
    line.string token (quote :: (double front ++ [quote, quote])) =
      line.problem token.span .unbalancedQuotes := by
  have hinside : inside? (quote :: (double front ++ [quote, quote])) =
      some (double front ++ [quote]) := by
    rw [inside?_quoted (by simp), List.dropLast_append_cons]
    rfl
  simp only [string, hinside, Text.Quoted.undouble?_double_quote]

theorem statement_of_operands_error {space name : Token} {m : Mnemonic}
    (blank : space.kind = .space) (hkind : name.kind = .mnemonic)
    (hrow : Mnemonic.ofName? name.text = some m) (h : line.operands m rest = .error stop) :
    line.statement (space :: name :: rest) = .error stop := by
  have hlabel : line.label (space :: name :: rest) = .ok (none, name :: rest) := by
    simp only [Line.label, next_cons, blank, List.tail_cons]
  have hname : line.expect .mnemonic (name :: rest) = .ok (name, rest) :=
    line.expect_eq_ok.2 ⟨rfl, beq_iff_eq.2 hkind⟩
  simp only [statement, hlabel, hname, hrow, h, bind, Except.bind]

theorem operands_of_data_error {m : Mnemonic} (hshape : m.shape = .constants) {space : Token}
    (blank : space.kind = .space) (hkind : token.kind = .constant .string)
    (h : line.string token token.text.toList = .error stop) :
    line.operands m (space :: token :: rest) = .error stop := by
  have hends : token.kind.endsLine = false := by simp [hkind, Token.Kind.endsLine]
  have hwords (rest : List Token) : line.dataWords (token :: rest) = .error stop := by
    simp [dataWords, expect, hkind, Slot.accepts, Token.Kind.isConstant, dataOf, constant, h, bind,
      Except.bind]
  have hconstants : line.constants (token :: rest) = .error stop := by
    cases rest with
    | nil => exact hwords []
    | cons next rest => simp only [constants, hwords, bind, Except.bind]
  simp only [operands, hshape, line.separator_space_cons blank hends, hconstants, bind, Except.bind]

theorem operands_of_literal_error {m : Mnemonic} (hshape : m.shape = .registerOrAddress)
    {space first comma : Token} {r : Register} (blank : space.kind = .space)
    (register : first.IsRegister r) (separator : comma.kind = .comma)
    (hkind : token.kind = .literal .string) {cs : List Char} (htext : token.text.toList = '=' :: cs)
    (h : line.string token cs = .error stop) :
    line.operands m (space :: first :: comma :: token :: rest) = .error stop := by
  have hmark : afterMark? ('=' :: cs) = some cs := rfl
  have haddress : line.address .address (token :: rest) = .error stop := by
    simp [address, expect, hkind, Slot.accepts, Token.Kind.isAddress, addressOf, htext, hmark,
      constant, h, bind, Except.bind]
  have hnext : token.kind.isAddress = true := by simp [hkind, Token.Kind.isAddress]
  have hregister : line.register .firstRegister (first :: comma :: token :: rest) =
      .ok (r, comma :: token :: rest) :=
    (line.register_eq_ok fun _ => rfl).2 ⟨first, rfl, register⟩
  simp only [operands, hshape, line.separator_space_cons blank (endsLine_of_isRegister register),
    hregister, line.separator_comma_cons separator, next_cons, hnext, if_true, indexedAddress,
    haddress, bind, Except.bind]

end Line

/-- The line that stores the characters of a string. -/
def dataLine (t : String) : String :=
  "  DC " ++ String.ofList (quote :: (double t.toList ++ [quote]))

/-- The line that loads the address of a string. -/
def literalLine (t : String) : String :=
  "  LD GR1,=" ++ String.ofList (quote :: (double t.toList ++ [quote]))

theorem toList_dataLine (t : String) :
    (dataLine t).toList = "  DC ".toList ++ quote :: (double t.toList ++ [quote]) := by
  simp [dataLine]

theorem toList_literalLine (t : String) :
    (literalLine t).toList =
      "  LD GR1,".toList ++ '=' :: quote :: (double t.toList ++ [quote]) := by
  simp [literalLine]

end Statement

namespace Assembly

open Statement
open Text.Quoted (quote double close? QuoteBeforeSeparator)

variable {gr8 : Bool} {number : Nat}

/-- A line is rejected if one of its tokens is wrong, whatever follows it. -/
theorem isRejected_readLine {source : String} {column : Nat} {rest : List Char}
    {front : List Token}
    (hscan : Token.scanFrom gr8 number 0 source.toList =
      (Token.scanFrom gr8 number column rest).map (front ++ ·))
    (hread : ∀ tokens, ∃ reading, read number (front ++ tokens) = .ok reading ∧
      reading.IsRejected) :
    ∃ reading, readLine gr8 number source = .ok reading ∧ reading.IsRejected := by
  cases hrest : Token.scanFrom gr8 number column rest with
  | error column =>
    refine ⟨⟨[], [⟨⟨number, column, Text.byteLength source.toList⟩, .invalidLine⟩]⟩, ?_, _, rfl,
      rfl⟩
    simp only [readLine_eq, readNonblank, Token.scan, hscan, hrest, Except.map]
  | ok tokens =>
    obtain ⟨reading, hreading, hrejected⟩ := hread tokens
    refine ⟨reading, ?_, hrejected⟩
    simpa only [readLine_eq, readNonblank, Token.scan, hscan, hrest, Except.map] using hreading

theorem readLine_eq_read {source : String} {column : Nat} {front : List Token}
    (hscan : Token.scanFrom gr8 number 0 source.toList =
      (Token.scanFrom gr8 number column []).map (front ++ ·)) :
    ∃ stop : Token, stop.kind = .endOfLine ∧ Token.scan gr8 number source = .ok (front ++ [stop]) ∧
      readLine gr8 number source = read number (front ++ [stop]) := by
  refine ⟨Token.atLineEnd number column, rfl, ?_⟩
  have hend : Token.scanFrom gr8 number column [] = .ok [Token.atLineEnd number column] := by
    rw [Token.scanFrom]
    rfl
  constructor <;> simp only [readLine_eq, readNonblank, Token.scan, hscan, hend, Except.map]

section Lines

variable (gr8 : Bool) (number : Nat) {t : String} {inside rest : List Char}

theorem exists_scanFrom_dataLine (h : close? (double t.toList ++ [quote]) = some (inside, rest)) :
    ∃ column, Token.scanFrom gr8 number 0 (dataLine t).toList =
      (Token.scanFrom gr8 number column rest).map ((Token.dataFront number ++
        [Token.ofText (.constant .string) number 5 (quote :: inside)]) ++ ·) := by
  refine ⟨5 + Text.byteLength (quote :: inside), ?_⟩
  rw [toList_dataLine, Token.scanFrom_dataFront,
    Token.scanFrom_of_first? (Token.Lexeme.first?_string h)]
  cases Token.scanFrom gr8 number (5 + Text.byteLength (quote :: inside)) rest <;> rfl

theorem exists_scanFrom_literalLine
    (h : close? (double t.toList ++ [quote]) = some (inside, rest)) :
    ∃ column, Token.scanFrom gr8 number 0 (literalLine t).toList =
      (Token.scanFrom gr8 number column rest).map ((Token.loadFront number ++
        [Token.ofText (.literal .string) number 9 ('=' :: quote :: inside)]) ++ ·) := by
  refine ⟨9 + Text.byteLength ('=' :: quote :: inside), ?_⟩
  rw [toList_literalLine, Token.scanFrom_loadFront,
    Token.scanFrom_of_first? (Token.Lexeme.first?_stringLiteral h)]
  cases Token.scanFrom gr8 number (9 + Text.byteLength ('=' :: quote :: inside)) rest <;> rfl

/-- A string with a quote before a separator cannot be written as data. -/
theorem isRejected_dataLine (h : QuoteBeforeSeparator t.toList) :
    ∃ reading, readLine gr8 number (dataLine t) = .ok reading ∧ reading.IsRejected := by
  obtain ⟨front, rest, hclose⟩ := Text.Quoted.exists_close?_double h []
  obtain ⟨column, hscan⟩ := exists_scanFrom_dataLine gr8 number hclose
  have hrow : Mnemonic.ofName? "DC" = some (.directive "DC" .constants) := rfl
  refine isRejected_readLine hscan fun tokens => ?_
  apply isRejected_read .unbalancedQuotes rfl rfl
  apply Line.statement_of_operands_error _ rfl rfl hrow
  apply Line.operands_of_data_error _ rfl rfl rfl
  rw [Token.ofText, String.toList_ofList]
  exact Line.string_of_closed_early _ front

/-- A string with a quote before a separator cannot be written as a literal. -/
theorem isRejected_literalLine (h : QuoteBeforeSeparator t.toList) :
    ∃ reading, readLine gr8 number (literalLine t) = .ok reading ∧ reading.IsRejected := by
  obtain ⟨front, rest, hclose⟩ := Text.Quoted.exists_close?_double h []
  obtain ⟨column, hscan⟩ := exists_scanFrom_literalLine gr8 number hclose
  have hrow : Mnemonic.ofName? "LD" = some (.operation "LD" 0x10 .registerOrAddress) := rfl
  have hregister : (Token.ofText .register number 5 ['G', 'R', '1']).IsRegister .gr1 := ⟨rfl, rfl⟩
  have htext : (Token.ofText (.literal .string) number 9
      ('=' :: quote :: (double front ++ [quote, quote]))).text.toList =
      '=' :: quote :: (double front ++ [quote, quote]) := String.toList_ofList
  refine isRejected_readLine hscan fun tokens => ?_
  apply isRejected_read .unbalancedQuotes rfl rfl
  apply Line.statement_of_operands_error _ rfl rfl hrow
  apply Line.operands_of_literal_error _ rfl rfl hregister rfl rfl htext
  exact Line.string_of_closed_early _ front

/-- Every other string of the character set can be written as data. -/
theorem exists_stores_dataLine (h : ¬ QuoteBeforeSeparator t.toList) (hne : t.toList ≠ [])
    {codes : List UInt8} (hcodes : Charset.encode? t.toList = some codes) :
    ∃ reading, readLine gr8 number (dataLine t) = .ok reading ∧ reading.Stores codes := by
  obtain ⟨column, hscan⟩ := exists_scanFrom_dataLine gr8 number (Text.Quoted.close?_double h rfl)
  obtain ⟨stop, hstop, htokens, hread⟩ := readLine_eq_read hscan
  generalize htoken : Token.ofText (.constant .string) number 5
    (quote :: (double t.toList ++ [quote])) = token at htokens hread
  have hkind : token.kind = .constant .string := htoken ▸ rfl
  have htext : token.text.toList = quote :: (double t.toList ++ [quote]) :=
    htoken ▸ String.toList_ofList
  have hdata : token.WritesData ((codes.map fun code => (code.toNat : Int)).map .resolved) :=
    .constant hkind (htext ▸ .string hne hcodes)
  have hline : IsLine (Token.dataFront number ++ [token] ++ [stop])
      ⟨none, .directive "DC" .constants, .constants _⟩ :=
    .mk (.blank rfl) rfl rfl (.constants rfl rfl (.last hdata))
      (@IsTrailer.mk none none stop (by simp) (by simp) hstop) (by simp)
  have hends : Token.EndLine (Token.dataFront number ++ [token] ++ [stop]) :=
    .cons rfl (.cons rfl (.cons rfl (.cons (by simp [hkind, Token.Kind.endsLine]) (.stop hstop))))
  have hreading := (read_of_isLine (Token.spelled_of_scan htokens) hends number hline .data).1
  refine ⟨_, hread.trans hreading, ?_, ?_, rfl⟩
  · simp
  · intro r hr
    obtain ⟨hmnemonic, hlabel, -⟩ := of_mem_recordsOf hr
    exact ⟨hmnemonic, hlabel.elim id id⟩

/-- Every other string of the character set can be written as a literal. -/
theorem exists_loads_literalLine (h : ¬ QuoteBeforeSeparator t.toList) (hne : t.toList ≠ [])
    {codes : List UInt8} (hcodes : Charset.encode? t.toList = some codes) :
    ∃ reading, readLine gr8 number (literalLine t) = .ok reading ∧ reading.Loads codes := by
  obtain ⟨column, hscan⟩ := exists_scanFrom_literalLine gr8 number (Text.Quoted.close?_double h rfl)
  obtain ⟨stop, hstop, htokens, hread⟩ := readLine_eq_read hscan
  generalize htoken : Token.ofText (.literal .string) number 9
    ('=' :: quote :: (double t.toList ++ [quote])) = token at htokens hread
  have hkind : token.kind = .literal .string := htoken ▸ rfl
  have htext : token.text.toList = '=' :: quote :: (double t.toList ++ [quote]) :=
    htoken ▸ String.toList_ofList
  have haddress := Token.WritesAddress.literal hkind htext (.string hne hcodes)
  have hline : IsLine (Token.loadFront number ++ [token] ++ [stop])
      ⟨none, .operation "LD" 0x10 .registerOrAddress, .registerAddress .gr1 _ none⟩ :=
    .mk (.blank rfl) rfl rfl
      (.registerAddress (.inr rfl) rfl ⟨rfl, rfl⟩ rfl haddress .absent)
      (@IsTrailer.mk none none stop (by simp) (by simp) hstop) (by simp)
  have hends : Token.EndLine (Token.loadFront number ++ [token] ++ [stop]) :=
    .cons rfl (.cons rfl (.cons rfl (.cons rfl (.cons rfl
      (.cons (by simp [hkind, Token.Kind.endsLine]) (.stop hstop))))))
  have hreading := (read_of_isLine (Token.spelled_of_scan htokens) hends number hline
    (.registerAddress rfl)).1
  exact ⟨_, hread.trans hreading, _, _, _, rfl, rfl, rfl, rfl⟩

end Lines

/-- A string of the character set is stored and loaded character by character, unless one
of its quotes stands before a separator. Then both lines are rejected. -/
theorem readLine_string (gr8 : Bool) (number : Nat) {t : String} (hne : t ≠ "")
    {codes : List UInt8} (hcodes : Charset.encode? t.toList = some codes) :
    ∃ data literal, readLine gr8 number (dataLine t) = .ok data ∧
      readLine gr8 number (literalLine t) = .ok literal ∧ codes.length = t.length ∧
      (¬ QuoteBeforeSeparator t.toList → data.Stores codes ∧ literal.Loads codes) ∧
      (QuoteBeforeSeparator t.toList → data.IsRejected ∧ literal.IsRejected) := by
  have hchars : t.toList ≠ [] := fun hnil => hne (String.toList_eq_nil_iff.1 hnil)
  have hlength : codes.length = t.length :=
    (Charset.length_of_encode? hcodes).trans String.length_toList
  by_cases h : QuoteBeforeSeparator t.toList
  · obtain ⟨data, hdata, hrejected⟩ := isRejected_dataLine gr8 number h
    obtain ⟨literal, hliteral, hrejected'⟩ := isRejected_literalLine gr8 number h
    exact ⟨data, literal, hdata, hliteral, hlength, fun hn => absurd h hn,
      fun _ => ⟨hrejected, hrejected'⟩⟩
  · obtain ⟨data, hdata, hstores⟩ := exists_stores_dataLine gr8 number h hchars hcodes
    obtain ⟨literal, hliteral, hloads⟩ := exists_loads_literalLine gr8 number h hchars hcodes
    exact ⟨data, literal, hdata, hliteral, hlength, fun _ => ⟨hstores, hloads⟩,
      fun hq => absurd hq h⟩

theorem readLine_string_doubled :
    "IT'S, ''" ≠ "" ∧ Charset.encode? "IT'S, ''".toList = some [73, 84, 39, 83, 44, 32, 39, 39] ∧
      ∃ data literal, readLine true 3 (dataLine "IT'S, ''") = .ok data ∧
        readLine true 3 (literalLine "IT'S, ''") = .ok literal ∧
        data.Stores [73, 84, 39, 83, 44, 32, 39, 39] ∧
        literal.Loads [73, 84, 39, 83, 44, 32, 39, 39] := by
  have hne : "IT'S, ''" ≠ "" := by decide
  have hcodes : Charset.encode? "IT'S, ''".toList = some [73, 84, 39, 83, 44, 32, 39, 39] := by
    decide +kernel
  have hquotes : ¬ QuoteBeforeSeparator "IT'S, ''".toList := by decide +kernel
  obtain ⟨data, literal, hdata, hliteral, -, hread, -⟩ := readLine_string true 3 hne hcodes
  exact ⟨hne, hcodes, data, literal, hdata, hliteral, hread hquotes⟩

/-- The characters of this string are all in the character set, but its quote stands
before a comma. -/
theorem isRejected_quote_comma :
    Charset.encode? "A',B".toList = some [65, 39, 44, 66] ∧ dataLine "A',B" = "  DC 'A'',B'" ∧
      ∃ d, readLine false 0 (dataLine "A',B") = .ok ⟨[], [d]⟩ ∧ d.severity = .error := by
  have hline : (readLine false 0 (dataLine "A',B")).toOption.map
      (fun reading => (reading.records, reading.diagnostics)) =
      some ([], [⟨⟨0, ⟨11, 12⟩⟩, .invalidLine⟩]) := by decide +kernel
  refine ⟨by decide +kernel, by decide +kernel, ⟨⟨0, ⟨11, 12⟩⟩, .invalidLine⟩, ?_, rfl⟩
  cases hread : readLine false 0 (dataLine "A',B") with
  | error f => simp [hread, Except.toOption] at hline
  | ok reading =>
    obtain ⟨records, diagnostics⟩ := reading
    simp only [hread, Except.toOption, Option.map_some, Option.some.injEq, Prod.mk.injEq] at hline
    rw [hline.1, hline.2]

end Assembly

end Comet
