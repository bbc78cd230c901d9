import Comet.Proofs.StringConstants

/-!
# Scanning tokens again

A token that was scanned somewhere is scanned again wherever its text stands before a
separator: names and numerals because no separator continues them, and string constants
because the quote that closed them closes them again. `StandsAlone` says so of a text.

A text that is put together from such texts, blanks and commas is divided into these
pieces again (`exists_scanFrom_of_divides`). Numbers are written with four hexadecimal
digits, which have the value of the number.
-/

namespace Comet

namespace Text

namespace Quoted

/-- Names do not go on with a separator. -/
theorem isNameChar_of_separates {rest : List Char} (h : separates rest = true) :
    ∀ c ∈ rest.head?, Token.isNameChar c = false := by
  intro c hc
  obtain ⟨cs, rfl⟩ := List.head?_eq_some_iff.1 hc
  by_contra hname
  rw [Bool.not_eq_false] at hname
  have hblank : isBlank c = false := by
    apply isBlank_eq_false_of_isAlphanum
    simpa [Token.isNameChar] using hname
  have hcomma : c ≠ ',' := by
    rintro rfl
    cases hname
  have hsemicolon : c ≠ ';' := by
    rintro rfl
    cases hname
  simp [separates, hblank, hcomma, hsemicolon] at h

/-- Whether a text begins with a separator is decided by its first character. -/
theorem separates_append {cs : List Char} (h : cs ≠ []) (rest rest' : List Char) :
    separates (cs ++ rest) = separates (cs ++ rest') := by
  cases cs with
  | nil => exact absurd rfl h
  | cons c cs => rfl

/-- A constant is closed again by the quote that closed it. -/
theorem close?_append_of_close? {cs inside rest : List Char} (h : close? cs = some (inside, rest))
    {rest' : List Char} (hrest : separates rest' = true) :
    close? (inside ++ rest') = some (inside, rest') := by
  induction cs generalizing inside rest with
  | nil => cases h
  | cons c cs ih =>
    -- What is closed later begins as before, so that no quote closes the constant earlier.
    have hlater {inside : List Char} (hclose : close? cs = some (inside, rest))
        (hseparates : c = quote → separates cs = false) :
        close? (c :: (inside ++ rest')) = some (c :: inside, rest') := by
      have hne : inside ≠ [] := by
        rintro rfl
        cases getLast?_of_close? hclose
      by_cases hc : c = quote
      · subst hc
        apply close?_quote_cons (ih hclose)
        rw [separates_append hne rest' rest, append_of_close? hclose]
        exact hseparates rfl
      · rw [close?_cons_of_ne hc, ih hclose]
        rfl
    rw [close?] at h
    split at h
    · rename_i hquote
      rw [hquote.1] at h hlater
      split at h
      · cases h
        exact close?_quote_of_separates hrest
      · rename_i hseparates
        split at h
        · rename_i hclose
          cases h
          exact hlater hclose fun _ => Bool.eq_false_iff.2 hseparates
        · cases h
          exact close?_quote_of_separates hrest
    · rename_i hquote
      obtain ⟨⟨inside', rest''⟩, hclose, heq⟩ := Option.map_eq_some_iff.1 h
      cases heq
      refine hlater hclose fun hc => ?_
      -- The next character is a quote, too.
      have hhead : cs.head? = some quote := by
        by_contra hne
        exact hquote ⟨hc, hne⟩
      obtain ⟨cs', rfl⟩ := List.head?_eq_some_iff.1 hhead
      rfl

end Quoted

namespace Numeral

/-- What a digit is read as. -/
theorem digit_spec {d : Nat} (h : d < 16) :
    digitValue? 16 (digit d) = some d ∧ Token.isHexDigit (digit d) = true ∧ digit d ≠ '-' ∧
      digit d ≠ '+' := by
  have hall : ∀ d : Fin 16, digitValue? 16 (digit d) = some d.val ∧
      Token.isHexDigit (digit d) = true ∧ digit d ≠ '-' ∧ digit d ≠ '+' := by decide
  exact hall ⟨d, h⟩

theorem isHexDigit_hex4 (n : Nat) : ∀ c ∈ hex4 n, Token.isHexDigit c = true := by
  have hdigit (d : Nat) : Token.isHexDigit (digit (d % 16)) = true :=
    (digit_spec (Nat.mod_lt d (by decide))).2.1
  simp [hex4, hdigit]

/-- Four digits have the value that they were written for. -/
theorem value?_hex4 {n : Nat} (h : n < 65536) : value? ('#' :: hex4 n) = some (n : Int) := by
  have hdigit (d : Nat) := digit_spec (Nat.mod_lt d (show 0 < 16 by decide))
  obtain ⟨-, -, hminus, hplus⟩ := hdigit (n / 4096)
  have hnatural : natural? 16 (hex4 n) = some n := by
    simp only [natural?, hex4, List.isEmpty_cons, Bool.false_eq_true, if_false, digits?,
      (hdigit _).1, Option.bind_some, Option.some.injEq]
    omega
  show integer? 16 (hex4 n) = some (n : Int)
  have hinteger : integer? 16 (hex4 n) = (natural? 16 (hex4 n)).map Int.ofNat := by
    rw [hex4, integer?]
    · exact fun _ heq => hminus (List.cons.inj heq).1
    · exact fun _ heq => hplus (List.cons.inj heq).1
  rw [hinteger, hnatural]
  rfl

end Numeral

end Text

namespace Token

/-- The kinds of names and constants. -/
def Kind.isItem : Kind → Bool
  | space | comma | comment | endOfLine => false
  | _ => true

/-- Wherever the text stands before a separator, it is a token of the kind. -/
def StandsAlone (gr8 : Bool) (kind : Kind) (text : List Char) : Prop :=
  ∀ rest, Text.Quoted.separates rest = true →
    Lexeme.first? gr8 (text ++ rest) = some ⟨kind, text, rest⟩

namespace Lexeme

variable {gr8 : Bool} {rest : List Char}

theorem run_append {p : Char → Bool} (kind : Kind) (c : Char) {cs : List Char}
    (hcs : ∀ d ∈ cs, p d = true) (hrest : ∀ d ∈ rest.head?, p d = false) :
    run kind p c (cs ++ rest) = ⟨kind, c :: cs, rest⟩ := by
  obtain ⟨htake, hdrop⟩ := Text.span_append hcs hrest
  rw [run, htake, hdrop]

theorem marked?_append {p : Char → Bool} (kind : Kind) (c : Char) {cs : List Char} (hne : cs ≠ [])
    (hcs : ∀ d ∈ cs, p d = true) (hrest : ∀ d ∈ rest.head?, p d = false) :
    marked? kind p c (cs ++ rest) = some ⟨kind, c :: cs, rest⟩ := by
  obtain ⟨htake, -⟩ := Text.span_append hcs hrest
  rw [marked?, htake, if_neg (by simpa using hne), run_append kind c hcs hrest]

theorem isDigit_of_separates (h : Text.Quoted.separates rest = true) :
    ∀ c ∈ rest.head?, c.isDigit = false := by
  intro c hc
  have hname := Text.Quoted.isNameChar_of_separates h c hc
  rw [isNameChar, Bool.or_eq_false_iff] at hname
  exact hname.2

theorem isHexDigit_of_separates (h : Text.Quoted.separates rest = true) :
    ∀ c ∈ rest.head?, isHexDigit c = false := by
  intro c hc
  have hname := Text.Quoted.isNameChar_of_separates h c hc
  by_contra hhex
  rw [Bool.not_eq_false] at hhex
  simp only [isHexDigit, Bool.or_eq_true, Bool.and_eq_true, decide_eq_true_eq] at hhex
  rw [isNameChar, Bool.or_eq_false_iff] at hname
  rcases hhex with hdigit | ⟨hfirst, hlast⟩
  · rw [hname.2] at hdigit
    cases hdigit
  · exact of_decide_eq_false hname.1 ⟨hfirst, Char.le_trans hlast (by decide)⟩

/-- A constant that was scanned is scanned again before a separator. -/
theorem constant?_append_of_constant? {kind : ConstantForm → Kind} {cs : List Char} {l : Lexeme}
    (h : constant? kind cs = some l) (hrest : Text.Quoted.separates rest = true) :
    constant? kind (l.text ++ rest) = some { l with rest } := by
  cases cs with
  | nil => cases h
  | cons c cs =>
    rw [constant?] at h
    split at h
    · rename_i hdigit
      cases h
      rw [run, List.cons_append, constant?, if_pos hdigit,
        run_append _ c (fun _ => List.mem_takeWhile_imp)
          (isDigit_of_separates hrest)]
    split at h
    · rename_i hdigit hminus
      obtain ⟨hne, rfl⟩ := marked?_eq_some h
      rw [run, List.cons_append, constant?, if_neg hdigit, if_pos hminus,
        marked?_append _ c hne (fun _ => List.mem_takeWhile_imp)
          (isDigit_of_separates hrest)]
    split at h
    · rename_i hdigit hminus hmark
      obtain ⟨hne, rfl⟩ := marked?_eq_some h
      rw [run, List.cons_append, constant?, if_neg hdigit, if_neg hminus, if_pos hmark,
        marked?_append _ c hne (fun _ => List.mem_takeWhile_imp)
          (isHexDigit_of_separates hrest)]
    split at h
    · rename_i hdigit hminus hmark hquote
      obtain ⟨⟨inside, rest'⟩, hclose, rfl⟩ := Option.map_eq_some_iff.1 h
      rw [List.cons_append, constant?, if_neg hdigit, if_neg hminus, if_neg hmark, if_pos hquote,
        Text.Quoted.close?_append_of_close? hclose hrest]
      rfl
    · cases h

end Lexeme

/-- A name is a name again before a separator. -/
theorem standsAlone_name {gr8 : Bool} {cs : List Char} (h : IsName cs) :
    StandsAlone gr8 (.ofName gr8 (String.ofList cs)) cs := by
  intro rest hrest
  cases cs with
  | nil => exact h.elim
  | cons c cs =>
    have hstop := Text.Quoted.isNameChar_of_separates hrest
    rw [List.cons_append, Lexeme.first?, if_pos h.1, (Text.span_append h.2 hstop).1,
      Lexeme.run_append _ c h.2 hstop]

/-- A name or a constant that was scanned is scanned again before a separator. -/
theorem standsAlone_of_first? {gr8 : Bool} {cs : List Char} {l : Lexeme}
    (h : Lexeme.first? gr8 cs = some l) (hkind : l.kind.isItem = true) :
    StandsAlone gr8 l.kind l.text := by
  have hsplits := Lexeme.splits_of_first? h
  cases cs with
  | nil => cases h
  | cons c cs =>
    rw [Lexeme.first?] at h
    split at h
    · rename_i hupper
      cases h
      exact standsAlone_name ⟨hupper, fun _ => List.mem_takeWhile_imp⟩
    split at h
    · cases h
      cases hkind
    split at h
    · cases h
      cases hkind
    split at h
    · cases h
      cases hkind
    intro rest hrest
    split at h
    · rename_i hupper hblank hcomma hsemicolon hequals
      obtain ⟨l', hl', rfl⟩ := Option.map_eq_some_iff.1 h
      rw [List.cons_append, Lexeme.first?, if_neg hupper, if_neg hblank, if_neg hcomma,
        if_neg hsemicolon, if_pos hequals, Lexeme.constant?_append_of_constant? hl' hrest]
      rfl
    · rename_i hupper hblank hcomma hsemicolon hequals
      have hconstant := Lexeme.constant?_append_of_constant? h hrest
      -- The text begins with the same character, so it is tried as a constant again.
      obtain ⟨kind, text, rest'⟩ := l
      cases text with
      | nil => exact absurd rfl hsplits.2
      | cons d text =>
        obtain rfl : d = c := (List.cons.inj hsplits.1).1
        rw [List.cons_append, Lexeme.first?, if_neg hupper, if_neg hblank, if_neg hcomma,
          if_neg hsemicolon, if_neg hequals]
        exact hconstant

theorem standsAlone_of_mem_scan {gr8 : Bool} {line : Nat} {source : String} {tokens : List Token}
    (h : scan gr8 line source = .ok tokens) {token : Token} (htoken : token ∈ tokens)
    {form : ConstantForm} (hkind : token.kind = .literal form) :
    StandsAlone gr8 token.kind token.text.toList := by
  have hitem : token.kind.isItem = true := by
    rw [hkind]
    rfl
  exact forall_mem_of_scanFrom
    (P := fun kind text => kind.isItem = true → StandsAlone gr8 kind text)
    (fun _ _ hl hitem => standsAlone_of_first? hl hitem) (by simp [Kind.isItem])
    (scan_eq_ok_iff.1 h) token htoken hitem

/-- A numeral of hexadecimal digits is one again before a separator. -/
theorem standsAlone_hex {gr8 : Bool} {cs : List Char} (hne : cs ≠ [])
    (hcs : ∀ c ∈ cs, isHexDigit c = true) :
    StandsAlone gr8 (.constant .hex) ('#' :: cs) := by
  intro rest hrest
  exact Lexeme.marked?_append _ '#' hne hcs (Lexeme.isHexDigit_of_separates hrest)

/-! ## Texts made of pieces -/

/-- A token without its place. -/
structure Piece where
  kind : Kind
  text : List Char
  deriving DecidableEq, Repr

/-- What the token is, apart from its place. -/
def piece (token : Token) : Piece := ⟨token.kind, token.text.toList⟩

namespace Piece

/-- The text that pieces make. -/
def join (pieces : List Piece) : List Char := pieces.flatMap Piece.text

/-- The blanks of the given number. -/
def blanks (n : Nat) : Piece := ⟨.space, List.replicate n ' '⟩

/-- The comma between operands. -/
def comma : Piece := ⟨.comma, [',']⟩

/-- A name or a constant, which no separator continues. -/
structure IsItem (gr8 : Bool) (p : Piece) : Prop where
  standsAlone : StandsAlone gr8 p.kind p.text
  kind_ne : p.kind ≠ .space

/-- Every piece is the first token of the text that it begins. -/
inductive Divides (gr8 : Bool) : List Piece → Prop
  | nil : Divides gr8 []
  | cons {p : Piece} {pieces : List Piece}
      (first : Lexeme.first? gr8 (p.text ++ join pieces) = some ⟨p.kind, p.text, join pieces⟩)
      (rest : Divides gr8 pieces) : Divides gr8 (p :: pieces)

@[simp] theorem join_nil : join [] = [] := rfl

@[simp] theorem join_cons (p : Piece) (pieces : List Piece) :
    join (p :: pieces) = p.text ++ join pieces := rfl

@[simp] theorem join_append (pieces pieces' : List Piece) :
    join (pieces ++ pieces') = join pieces ++ join pieces' :=
  List.flatMap_append

variable {gr8 : Bool} {p : Piece} {pieces : List Piece}

/-- A text that divides into pieces is scanned into them. -/
theorem exists_scanFrom_of_divides (h : Divides gr8 pieces) (line column : Nat) :
    ∃ tokens stop, scanFrom gr8 line column (join pieces) = .ok (tokens ++ [stop]) ∧
      tokens.map piece = pieces ∧ stop.kind = .endOfLine := by
  induction h generalizing column with
  | nil =>
    refine ⟨[], atLineEnd line column, ?_, rfl, rfl⟩
    rw [join_nil, scanFrom]
    rfl
  | @cons p pieces first rest ih =>
    obtain ⟨tokens, stop, hscan, htokens, hstop⟩ := ih (column + Text.byteLength p.text)
    refine ⟨ofText p.kind line column p.text :: tokens, stop, ?_, ?_, hstop⟩
    · rw [join_cons, scanFrom_of_first? first, hscan]
      rfl
    · rw [List.map_cons, htokens]
      simp [piece, ofText]

/-- An item begins with a character that is not blank. -/
theorem IsItem.isBlank_eq_false (h : p.IsItem gr8) (pieces : List Piece) :
    ∀ c ∈ (join (p :: pieces)).head?, Text.isBlank c = false := by
  have hfirst := h.standsAlone [] rfl
  rw [List.append_nil] at hfirst
  rw [join_cons]
  intro c hc
  cases htext : p.text with
  | nil =>
    rw [htext] at hfirst
    cases hfirst
  | cons d cs =>
    rw [htext] at hc
    cases hc
    rw [htext, Lexeme.first?] at hfirst
    split at hfirst
    · rename_i hupper
      exact Text.isBlank_eq_false_of_isAlphanum (.inl hupper)
    split at hfirst
    · injection hfirst with hfirst
      exact absurd (congrArg Lexeme.kind hfirst).symm h.kind_ne
    · rename_i hblank
      exact Bool.eq_false_iff.2 hblank

/-- A separator may follow an item. -/
theorem IsItem.divides (h : p.IsItem gr8) (hrest : Divides gr8 pieces)
    (hseparates : Text.Quoted.separates (join pieces) = true) : Divides gr8 (p :: pieces) :=
  .cons (h.standsAlone _ hseparates) hrest

/-- Anything but a blank may follow a comma. -/
theorem Divides.comma (h : Divides gr8 pieces)
    (hblank : ∀ c ∈ (join pieces).head?, Text.isBlank c = false) :
    Divides gr8 (comma :: pieces) := by
  refine .cons ?_ h
  have hnone : ∀ c ∈ ([] : List Char), Text.isBlank c = true := by simp
  exact congrArg some (Lexeme.run_append .comma ',' hnone hblank)

/-- Anything but a blank may follow blanks. -/
theorem Divides.blanks (n : Nat) (h : Divides gr8 pieces)
    (hblank : ∀ c ∈ (join pieces).head?, Text.isBlank c = false) :
    Divides gr8 (blanks (n + 1) :: pieces) := by
  refine .cons ?_ h
  have hblanks : ∀ c ∈ List.replicate n ' ', Text.isBlank c = true := by
    intro c hc
    rw [List.eq_of_mem_replicate hc]
    rfl
  exact congrArg some (Lexeme.run_append .space ' ' hblanks hblank)

/-- No list of items begins with a blank. -/
theorem isBlank_intersperse (h : ∀ p ∈ pieces, p.IsItem gr8) :
    ∀ c ∈ (join (pieces.intersperse Piece.comma)).head?, Text.isBlank c = false := by
  cases pieces with
  | nil => simp
  | cons p pieces =>
    have hp : p.IsItem gr8 := h p (.head _)
    cases pieces with
    | nil => exact hp.isBlank_eq_false []
    | cons q pieces =>
      rw [List.intersperse_cons_cons]
      exact hp.isBlank_eq_false _

/-- Items with commas between them divide into the items and the commas. -/
theorem divides_intersperse (h : ∀ p ∈ pieces, p.IsItem gr8) :
    Divides gr8 (pieces.intersperse Piece.comma) := by
  induction pieces with
  | nil => exact .nil
  | cons p pieces ih =>
    obtain ⟨hp, hrest⟩ := List.forall_mem_cons.1 h
    cases pieces with
    | nil => exact hp.divides .nil rfl
    | cons q pieces =>
      rw [List.intersperse_cons_cons]
      exact hp.divides ((ih hrest).comma (isBlank_intersperse hrest)) rfl

end Piece

end Token

end Comet
