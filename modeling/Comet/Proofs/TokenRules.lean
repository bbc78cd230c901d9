import Comet.Proofs.Patterns
import Comet.Proofs.StringConstants

/-!
# The rules of tokens

There are twelve rules for tokens, each a kind with a pattern. At every place of a line the rules
are tried in their order, and the first one that matches makes the token.

The scanner does not try rules. It looks at the first character and takes a name as far as it
goes. This file compares the two. They take the same text at every place, but not always as the
same kind of token: the rules for instructions and registers ask for the end of a word, and the
rule for labels does not. Where a name is followed by a letter in lower case or by another
character that goes on with the word, the rules see a label whatever the name is. No rule
matches there (`first?_of_isWord`), so such a line has no tokens in either case.
-/

namespace Comet

namespace Text.Quoted

/-- A run of quotes closes a constant, unless something follows it that belongs to the constant and
in which it is closed later. -/
theorem close?_run {run rest : List Char} (hrun : ∀ c ∈ run, c = quote)
    (hrest : rest.head? ≠ some quote) :
    close? (quote :: (run ++ rest)) =
      if separates rest then some (quote :: run, rest)
      else (((close? rest).map fun found => (quote :: run ++ found.1, found.2)).or
        (some (quote :: run, rest))) := by
  induction run with
  | nil =>
    rw [List.nil_append, close?, if_pos ⟨rfl, hrest⟩]
    split
    · rfl
    · cases close? rest <;> rfl
  | cons c run ih =>
    obtain rfl := hrun c (.head run)
    have hmore : ¬ (quote = quote ∧ (quote :: run ++ rest).head? ≠ some quote) := by simp
    rw [close?, if_neg hmore, List.cons_append, ih fun c hc => hrun c (.tail _ hc)]
    split
    · rfl
    · cases close? rest <;> rfl

end Text.Quoted

namespace Token

open Text.Quoted (quote separates close?)

/-- The ASCII characters of words. -/
def isAsciiWord (c : Char) : Bool := c.isAlphanum || c == '_'

theorem isAsciiWord_of_isNameChar {c : Char} (h : isNameChar c = true) : isAsciiWord c = true := by
  refine Bool.or_eq_true_iff.2 (.inl (Bool.or_eq_true_iff.2 ?_))
  rcases Bool.or_eq_true_iff.1 h with hupper | hdigit
  · exact .inl (Bool.or_eq_true_iff.2 (.inl hupper))
  · exact .inr hdigit

theorem isAsciiWord_of_isBlank {c : Char} (h : Text.isBlank c = true) : isAsciiWord c = false := by
  refine Bool.eq_false_iff.2 fun hword => ?_
  rcases Bool.or_eq_true_iff.1 hword with halphanum | hunderscore
  · rcases Bool.or_eq_true_iff.1 halphanum with hletter | hdigit
    · rcases Bool.or_eq_true_iff.1 hletter with hupper | hlower
      · rw [Text.isBlank_eq_false_of_isAlphanum (.inl hupper)] at h
        cases h
      · have hn : 97 ≤ c.toNat ∧ c.toNat ≤ 122 :=
          Bool.and_eq_true_iff.1 hlower |>.imp of_decide_eq_true of_decide_eq_true
        simp only [Text.isBlank, Bool.or_eq_true, Bool.and_eq_true, decide_eq_true_eq,
          beq_iff_eq] at h
        omega
    · rw [Text.isBlank_eq_false_of_isAlphanum (.inr hdigit)] at h
      cases h
  · rw [eq_of_beq hunderscore] at h
    cases h

/-- The characters of words. All that the rules rely on is which ASCII characters are among them,
and that no blank is. -/
structure WordClass where
  isWord : Char → Bool
  ascii : ∀ c : Char, c.toNat < 128 → isWord c = isAsciiWord c
  blank : ∀ c : Char, Text.isBlank c = true → isWord c = false

/-- The smallest such class, which has no other characters than those of ASCII. -/
def WordClass.asciiOnly : WordClass where
  isWord := isAsciiWord
  ascii _ _ := rfl
  blank _ := isAsciiWord_of_isBlank

/-- A kind of token and how it is written. -/
structure Rule where
  kind : Kind
  pattern : Pattern

namespace Rule

/-- The characters that do not end a string when they follow a quote. -/
def staysInside (c : Char) : Bool :=
  !(c == quote || c == ',' || c == ';' || Text.isBlank c)

/-- A piece of the inside of a string. -/
def piece : Pattern :=
  .alt (.char (· != quote)) (.seq (.plus (.char (· == quote))) (.char staysInside))

/-- The inside of a string and the quotes that close it. -/
def inside : Pattern := .seq (.many piece) (.plus (.char (· == quote)))

/-- How a constant is written. -/
def constant : ConstantForm → Pattern
  | .decimal => .seq (.alt (.char (· == '-')) .empty) (.plus (.char Char.isDigit))
  | .hex => .seq (.char (· == '#')) (.plus (.char isHexDigit))
  | .string => .seq (.char (· == quote)) inside

/-- The digits in the names of registers. -/
def isRegisterDigit (gr8 : Bool) (c : Char) : Bool :=
  "01234567".toList.contains c || (gr8 && c == '8')

/-- The names of instructions, then the end of a word. -/
def mnemonic (w : WordClass) : Pattern :=
  .seq (.oneOf ((Mnemonic.table.map (·.name.toList)).map .word)) (.boundary w.isWord)

/-- The names of registers, then the end of a word. -/
def register (w : WordClass) (gr8 : Bool) : Pattern :=
  .seq (.seq (.word ['G', 'R']) (.char (isRegisterDigit gr8))) (.boundary w.isWord)

end Rule

/-- The forms of constants in the order in which they are tried. -/
def Rule.forms : List ConstantForm := [.decimal, .hex, .string]

/-- The rules in the order in which they are tried. -/
def rules (w : WordClass) (gr8 : Bool) : List Rule :=
  [ ⟨.mnemonic, Rule.mnemonic w⟩,
    ⟨.register, Rule.register w gr8⟩,
    ⟨.label, .seq (.char Char.isUpper) (.many (.char isNameChar))⟩,
    ⟨.space, .plus (.char Text.isBlank)⟩,
    ⟨.comma, .seq (.char (· == ',')) (.many (.char Text.isBlank))⟩ ] ++
  Rule.forms.map (fun form => ⟨.literal form, .seq (.char (· == '=')) (Rule.constant form)⟩) ++
  Rule.forms.map (fun form => ⟨.constant form, Rule.constant form⟩) ++
  [ ⟨.comment, .seq (.char (· == ';')) (.many (.char (· != '\n')))⟩ ]

/-- What a rule matches at the beginning of a text. -/
def Rule.match? (rule : Rule) (cs : List Char) : Option Lexeme :=
  (rule.pattern.match? cs).map fun found => ⟨rule.kind, found.1, found.2⟩

/-- What the first rule that matches makes of the beginning of a text. -/
def firstMatch? (w : WordClass) (gr8 : Bool) (cs : List Char) : Option Lexeme :=
  (rules w gr8).findSome? (·.match? cs)

/-! ## Constants -/

namespace Rule

theorem consumes_piece : piece.Consumes :=
  (Pattern.consumes_char _).alt ((Pattern.consumes_char _).plus_seq (Pattern.consumes_char _))

theorem ends_piece_of_ne {c : Char} (h : c ≠ quote) (before cs : List Char) :
    piece.ends ⟨before, c :: cs⟩ = [⟨c :: before, cs⟩] := by
  simp [piece, Pattern.ends, Pattern.plus, h]

theorem ends_plus_quote (before cs : List Char) :
    (Pattern.plus (.char (· == quote))).ends ⟨before, quote :: cs⟩ =
      (Pattern.many (.char (· == quote))).ends ⟨quote :: before, cs⟩ := by
  simp [Pattern.plus, Pattern.ends_seq]

/-- Quotes belong to the inside of a string as a whole run and with the character behind it. With
fewer of them, what follows is a quote. -/
theorem ends_piece_quote (before cs : List Char) :
    piece.ends ⟨before, quote :: cs⟩ = (Pattern.char staysInside).ends
      ⟨(cs.takeWhile (· == quote)).reverse ++ quote :: before, cs.dropWhile (· == quote)⟩ := by
  obtain ⟨others, hends, hothers⟩ :=
    Pattern.exists_ends_many_char (· == quote) (quote :: before) cs
  have hnone : others.flatMap (Pattern.char staysInside).ends = [] := by
    refine List.flatMap_eq_nil_iff.2 ?_
    rintro ⟨before', after⟩ hstop
    obtain ⟨c, hc, hquote⟩ := hothers _ hstop
    obtain ⟨rest, rfl⟩ := List.head?_eq_some_iff.1 hc
    obtain rfl := beq_iff_eq.1 hquote
    rfl
  rw [piece, Pattern.ends_alt, Pattern.ends_seq, ends_plus_quote, hends, List.flatMap_cons, hnone,
    List.append_nil]
  simp

theorem ends_inside_of_ne {c : Char} (h : c ≠ quote) (before cs : List Char) :
    inside.ends ⟨before, c :: cs⟩ = inside.ends ⟨c :: before, cs⟩ := by
  have hplus : (Pattern.plus (.char (· == quote))).ends ⟨before, c :: cs⟩ = [] := by
    simp [Pattern.plus, Pattern.ends_seq, h]
  rw [inside, consumes_piece.ends_seq_many, ends_piece_of_ne h, hplus]
  simp

/-- A string that goes on behind a run of quotes is closed there only if it is not closed later. -/
theorem head?_inside_quote (before cs : List Char) :
    (inside.ends ⟨before, quote :: cs⟩).head? =
      (((Pattern.char staysInside).ends ⟨(cs.takeWhile (· == quote)).reverse ++ quote :: before,
        cs.dropWhile (· == quote)⟩).flatMap inside.ends).head?.or
      (some ⟨(cs.takeWhile (· == quote)).reverse ++ quote :: before,
        cs.dropWhile (· == quote)⟩) := by
  obtain ⟨others, hends, -⟩ := Pattern.exists_ends_many_char (· == quote) (quote :: before) cs
  rw [inside, consumes_piece.ends_seq_many, List.head?_append, ends_piece_quote, ends_plus_quote,
    hends]
  rfl

/-- What the pattern matches is what closes the string. -/
theorem finds_inside : inside.Finds close? := by
  intro before cs
  induction hn : cs.length using Nat.strong_induction_on generalizing before cs with
  | _ n ih =>
    subst hn
    cases cs with
    | nil =>
      rw [inside, consumes_piece.ends_seq_many]
      rfl
    | cons c cs =>
      by_cases hc : c = quote
      · subst hc
        have hrun : ∀ c ∈ cs.takeWhile (· == quote), c = quote :=
          fun c hc => by simpa using List.mem_takeWhile_imp hc
        have hrest : (cs.dropWhile (· == quote)).head? ≠ some quote := by
          intro hhead
          cases Text.head?_dropWhile (· == quote) cs quote hhead
        have hclose := Text.Quoted.close?_run hrun hrest
        rw [List.takeWhile_append_dropWhile] at hclose
        have hlength : (cs.dropWhile (· == quote)).length ≤ cs.length :=
          (List.dropWhile_suffix _).length_le
        rw [head?_inside_quote, hclose]
        generalize cs.takeWhile (· == quote) = run, cs.dropWhile (· == quote) = rest at *
        cases rest with
        | nil => simp [separates]
        | cons d rest =>
          have hd : d ≠ quote := fun heq => hrest (congrArg some heq)
          have hinside : staysInside d = !separates (d :: rest) := by
            simp [staysInside, separates, beq_eq_false_iff_ne.2 hd]
          rw [Pattern.ends_char_cons, hinside]
          cases hseparates : separates (d :: rest) with
          | true => simp
          | false =>
            have hlater := ih rest.length (by simp at hlength ⊢; omega)
              (d :: (run.reverse ++ quote :: before)) rest rfl
            simp only [Bool.not_false, if_true, List.flatMap_singleton, hlater,
              Text.Quoted.close?_cons_of_ne hd]
            cases close? rest <;> simp
      · have hlater := ih cs.length (Nat.lt_succ_self _) (c :: before) cs rfl
        rw [ends_inside_of_ne hc, hlater, Text.Quoted.close?_cons_of_ne hc]
        cases close? cs <;> simp

/-- What is found where a constant is looked for. -/
def constantText? : ConstantForm → List Char → Option (List Char × List Char)
  | .decimal, cs =>
    (Pattern.behind? (· == '-') (Pattern.stretch? Char.isDigit) cs).or
      (Pattern.stretch? Char.isDigit cs)
  | .hex, cs => Pattern.behind? (· == '#') (Pattern.stretch? isHexDigit) cs
  | .string, cs => Pattern.behind? (· == quote) close? cs

theorem finds_constant (form : ConstantForm) :
    (constant form).Finds (constantText? form) := by
  cases form with
  | decimal => exact (Pattern.finds_plus_char _).optional _
  | hex => exact (Pattern.finds_plus_char _).behind _
  | string => exact finds_inside.behind _

theorem match?_of_finds {rule : Rule} {find? : List Char → Option (List Char × List Char)}
    (h : rule.pattern.Finds find?) (cs : List Char) :
    rule.match? cs = (find? cs).map fun found => ⟨rule.kind, found.1, found.2⟩ := by
  rw [match?, h.match?_eq]

/-- A first character and a run behind it. -/
theorem match?_run (kind : Kind) (p q : Char → Bool) (c : Char) (cs : List Char) :
    match? ⟨kind, .seq (.char p) (.many (.char q))⟩ (c :: cs) =
      if p c then some (Lexeme.run kind q c cs) else none := by
  rw [match?_of_finds ((Pattern.finds_many_char q).behind p), Pattern.behind?]
  split <;> rfl

end Rule

theorem Lexeme.marked?_eq (kind : Kind) (p : Char → Bool) (c : Char) (cs : List Char) :
    marked? kind p c cs =
      (Pattern.stretch? p cs).map fun found => ⟨kind, c :: found.1, found.2⟩ := by
  rw [marked?, Pattern.stretch?]
  split <;> rfl

/-- The forms of constants begin differently, so it does not matter which one is tried first. -/
theorem Lexeme.constant?_eq_findSome? (kind : ConstantForm → Kind) (cs : List Char) :
    constant? kind cs = Rule.forms.findSome? fun form =>
      (Rule.constantText? form cs).map fun found => ⟨kind form, found.1, found.2⟩ := by
  cases cs with
  | nil => rfl
  | cons c cs =>
    simp only [Rule.forms, List.findSome?_cons, List.findSome?_nil, Rule.constantText?,
      Pattern.behind?, Pattern.stretch?_cons, beq_iff_eq]
    rw [constant?]
    split
    · rename_i hdigit
      have hminus : c ≠ '-' := by
        rintro rfl
        cases hdigit
      simp [hminus]
      rfl
    split
    · rename_i hminus
      subst hminus
      rw [marked?_eq]
      cases Pattern.stretch? Char.isDigit cs <;> simp [quote]
    split
    · rename_i hhash
      subst hhash
      rw [marked?_eq]
      cases Pattern.stretch? isHexDigit cs <;> simp [quote]
    split
    · rename_i hquote
      subst hquote
      cases close? cs <;> simp
    · simp

theorem findSome?_constants (kind : ConstantForm → Kind) (cs : List Char) :
    (Rule.forms.map fun form => (⟨kind form, Rule.constant form⟩ : Rule)).findSome?
      (·.match? cs) = Lexeme.constant? kind cs := by
  rw [List.findSome?_map, Lexeme.constant?_eq_findSome?]
  congr 1
  funext form
  exact Rule.match?_of_finds (Rule.finds_constant form) cs

theorem findSome?_literals (c : Char) (cs : List Char) :
    (Rule.forms.map fun form =>
      (⟨.literal form, .seq (.char (· == '=')) (Rule.constant form)⟩ : Rule)).findSome?
      (·.match? (c :: cs)) =
      if c = '=' then (Lexeme.constant? .literal cs).map fun l => { l with text := c :: l.text }
      else none := by
  have hrule (form : ConstantForm) :
      Rule.match? ⟨.literal form, .seq (.char (· == '=')) (Rule.constant form)⟩ (c :: cs) =
        if c = '=' then (Rule.match? ⟨.literal form, Rule.constant form⟩ cs).map
          fun l => { l with text := c :: l.text } else none := by
    rw [Rule.match?_of_finds ((Rule.finds_constant form).behind _),
      Rule.match?_of_finds (Rule.finds_constant form), Pattern.behind?, Option.map_map]
    by_cases hc : c = '='
    · simp [hc, Function.comp_def]
    · simp [hc]
  rw [List.findSome?_map, ← findSome?_constants, List.findSome?_map]
  simp only [Function.comp_def, hrule]
  split
  · rw [List.map_findSome?]
    rfl
  · simp

/-! ## Names -/

namespace WordClass

variable (w : WordClass)

theorem isWord_of_isNameChar {c : Char} (h : isNameChar c = true) : w.isWord c = true := by
  have hascii : c.toNat < 128 := by
    rcases Bool.or_eq_true_iff.1 h with hupper | hdigit
    · have hle : c.toNat ≤ 90 := (of_decide_eq_true hupper).2
      omega
    · have hle : c.toNat ≤ 57 := of_decide_eq_true (Bool.and_eq_true_iff.1 hdigit).2
      omega
  exact (w.ascii c hascii).trans (isAsciiWord_of_isNameChar h)

end WordClass

/-- The names of instructions. -/
def isMnemonicName (cs : List Char) : Bool :=
  (Mnemonic.ofName? (String.ofList cs)).isSome

/-- The names of the registers that a program may name. -/
def isRegisterName (gr8 : Bool) (cs : List Char) : Bool :=
  (Register.ofName? (String.ofList cs)).any (Register.available gr8)

theorem Kind.ofName_eq (gr8 : Bool) (cs : List Char) :
    Kind.ofName gr8 (String.ofList cs) =
      if isMnemonicName cs then .mnemonic
      else if isRegisterName gr8 cs then .register else .label := rfl

theorem isMnemonicName_iff {cs : List Char} :
    isMnemonicName cs = true ↔ ∃ m ∈ Mnemonic.table, m.name = String.ofList cs := by
  rw [isMnemonicName, Mnemonic.ofName?, List.find?_isSome]
  simp only [beq_iff_eq]

theorem isRegisterName_iff {gr8 : Bool} {cs : List Char} :
    isRegisterName gr8 cs = true ↔
      ∃ r : Register, r.available gr8 = true ∧ r.name = String.ofList cs := by
  rw [isRegisterName, Option.any_eq_true]
  constructor
  · rintro ⟨r, hr, havailable⟩
    exact ⟨r, havailable, (Register.ofName?_eq_some_iff.1 hr).symm⟩
  · rintro ⟨r, havailable, hname⟩
    exact ⟨r, Register.ofName?_eq_some_iff.2 hname.symm, havailable⟩

theorem IsName.isNameChar {cs : List Char} (h : IsName cs) : ∀ c ∈ cs, isNameChar c = true := by
  cases cs with
  | nil => cases h
  | cons c cs =>
    refine List.forall_mem_cons.2 ⟨?_, h.2⟩
    rw [Token.isNameChar, h.1]
    rfl

theorem IsName.isWord {cs : List Char} (h : IsName cs) (w : WordClass) :
    cs ≠ [] ∧ ∀ c ∈ cs, w.isWord c = true := by
  constructor
  · rintro rfl
    exact h
  · exact fun c hc => w.isWord_of_isNameChar (h.isNameChar c hc)

theorem isName_of_isMnemonicName {cs : List Char} (h : isMnemonicName cs = true) : IsName cs := by
  obtain ⟨m, hm, hname⟩ := isMnemonicName_iff.1 h
  rw [← String.toList_ofList (l := cs), ← hname]
  exact isName_mnemonic hm

theorem isName_of_isRegisterName {gr8 : Bool} {cs : List Char}
    (h : isRegisterName gr8 cs = true) : IsName cs := by
  obtain ⟨r, -, hname⟩ := isRegisterName_iff.1 h
  rw [← String.toList_ofList (l := cs), ← hname]
  exact isName_register r

namespace Rule

theorem spells_mnemonic :
    (Pattern.oneOf ((Mnemonic.table.map (·.name.toList)).map .word)).Spells
      (isMnemonicName · = true) := by
  refine (Pattern.spells_oneOf_word _).congr fun cs => ?_
  rw [List.mem_map, isMnemonicName_iff]
  constructor
  · rintro ⟨m, hm, rfl⟩
    exact ⟨m, hm, String.ofList_toList.symm⟩
  · rintro ⟨m, hm, hname⟩
    exact ⟨m, hm, by rw [hname, String.toList_ofList]⟩

theorem isRegisterName_digit (gr8 : Bool) (c : Char) :
    isRegisterName gr8 ['G', 'R', c] = isRegisterDigit gr8 c := by
  rw [Bool.eq_iff_iff]
  constructor
  · intro h
    obtain ⟨r, havailable, hname⟩ := isRegisterName_iff.1 h
    have hdigit : r.name.toList[2]? = some c := by
      rw [hname, String.toList_ofList]
      rfl
    cases r with
    | gr8 =>
      cases hdigit
      cases gr8 with
      | false => cases havailable
      | true => rfl
    | _ =>
      cases hdigit
      rfl
  · intro h
    simp only [isRegisterDigit, Bool.or_eq_true, List.contains_iff_mem, Bool.and_eq_true,
      beq_iff_eq] at h
    rcases h with h | ⟨rfl, rfl⟩
    · have hall : "01234567".toList.all (fun c => isRegisterName gr8 ['G', 'R', c]) = true := by
        cases gr8 <;> decide +kernel
      exact List.all_eq_true.1 hall c h
    · rfl

theorem spells_register (gr8 : Bool) :
    (Pattern.seq (.word ['G', 'R']) (.char (isRegisterDigit gr8))).Spells
      (isRegisterName gr8 · = true) := by
  refine ((Pattern.spells_word _).seq (Pattern.spells_char _)).congr fun cs => ?_
  constructor
  · rintro ⟨front, back, rfl, rfl, c, rfl, hc⟩
    exact (isRegisterName_digit gr8 c).trans hc
  · intro h
    have hletters : ∃ c, cs = ['G', 'R', c] := by
      obtain ⟨r, -, hname⟩ := isRegisterName_iff.1 h
      rw [← String.toList_ofList (l := cs), ← hname]
      cases r <;> exact ⟨_, rfl⟩
    obtain ⟨c, rfl⟩ := hletters
    exact ⟨['G', 'R'], [c], rfl, rfl, c, rfl, (isRegisterName_digit gr8 c).symm.trans h⟩

variable (w : WordClass) (gr8 : Bool)

/-- The rule for instructions matches if the whole word is the name of one. -/
theorem match?_mnemonic (cs : List Char) :
    match? ⟨.mnemonic, mnemonic w⟩ cs =
      if isMnemonicName (cs.takeWhile w.isWord) then
        some ⟨.mnemonic, cs.takeWhile w.isWord, cs.dropWhile w.isWord⟩ else none := by
  have hfinds := spells_mnemonic.finds_boundary fun cs hcs =>
    (isName_of_isMnemonicName hcs).isWord w
  rw [match?_of_finds hfinds]
  split <;> rfl

theorem match?_register (cs : List Char) :
    match? ⟨.register, register w gr8⟩ cs =
      if isRegisterName gr8 (cs.takeWhile w.isWord) then
        some ⟨.register, cs.takeWhile w.isWord, cs.dropWhile w.isWord⟩ else none := by
  have hfinds := (spells_register gr8).finds_boundary fun cs hcs =>
    (isName_of_isRegisterName hcs).isWord w
  rw [match?_of_finds hfinds]
  split <;> rfl

end Rule

/-! ## The first rule that matches -/

section FirstMatch

variable (w : WordClass) (gr8 : Bool) {c : Char} (cs : List Char)

/-- Behind a name that goes on as a word, the rules for instructions and registers do not match. -/
theorem firstMatch?_of_isUpper (h : c.isUpper = true) :
    firstMatch? w gr8 (c :: cs) = some (Lexeme.run
      (if (cs.dropWhile isNameChar).head?.any w.isWord then .label
        else .ofName gr8 (String.ofList (c :: cs.takeWhile isNameChar))) isNameChar c cs) := by
  have hname : IsName (c :: cs.takeWhile isNameChar) := ⟨h, fun _ => List.mem_takeWhile_imp⟩
  have hsplit : c :: cs = (c :: cs.takeWhile isNameChar) ++ cs.dropWhile isNameChar := by
    rw [List.cons_append, List.takeWhile_append_dropWhile]
  rw [firstMatch?, rules, List.append_assoc, List.append_assoc, List.cons_append, List.cons_append,
    List.cons_append, List.findSome?_cons, Rule.match?_mnemonic, List.findSome?_cons,
    Rule.match?_register, List.findSome?_cons, Rule.match?_run, if_pos h]
  cases hedge : (cs.dropWhile isNameChar).head?.any w.isWord with
  | false =>
    have hstop : ∀ d ∈ (cs.dropWhile isNameChar).head?, w.isWord d = false := by
      intro d hd
      rw [Option.mem_def.1 hd] at hedge
      exact hedge
    obtain ⟨htake, hdrop⟩ := Text.span_append (hname.isWord w).2 hstop
    rw [← hsplit] at htake hdrop
    rw [htake, hdrop, Kind.ofName_eq]
    cases isMnemonicName (c :: cs.takeWhile isNameChar) with
    | true => rfl
    | false => cases isRegisterName gr8 (c :: cs.takeWhile isNameChar) <;> rfl
  | true =>
    -- The word has a character that is in no name.
    have hnot : ¬ IsName ((c :: cs).takeWhile w.isWord) := by
      intro hword
      obtain ⟨d, hd, hisWord⟩ := (Option.any_eq_true _ _).1 hedge
      obtain ⟨rest, hrest⟩ := List.head?_eq_some_iff.1 hd
      have hmem : d ∈ (c :: cs).takeWhile w.isWord := by
        rw [hsplit, List.takeWhile_append_of_pos (hname.isWord w).2, hrest]
        simp [hisWord]
      have hstop := Text.head?_dropWhile isNameChar cs d hd
      rw [hword.isNameChar d hmem] at hstop
      cases hstop
    rw [if_neg fun hm => hnot (isName_of_isMnemonicName hm),
      if_neg fun hr => hnot (isName_of_isRegisterName hr)]
    rfl

/-- All other tokens are told apart by their first characters. -/
theorem firstMatch?_of_not_isUpper (h : c.isUpper = false) :
    firstMatch? w gr8 (c :: cs) = Lexeme.first? gr8 (c :: cs) := by
  have hupper : ¬ c.isUpper = true := Bool.eq_false_iff.1 h
  have hnot : ¬ IsName ((c :: cs).takeWhile w.isWord) := by
    rw [List.takeWhile_cons]
    split
    · exact fun hname => hupper hname.1
    · exact id
  have hspace : Rule.match? ⟨.space, .plus (.char Text.isBlank)⟩ (c :: cs) =
      if Text.isBlank c then some (Lexeme.run .space Text.isBlank c cs) else none :=
    Rule.match?_run .space Text.isBlank Text.isBlank c cs
  rw [firstMatch?, rules, List.findSome?_append, List.findSome?_append, List.findSome?_append,
    findSome?_literals, findSome?_constants, List.findSome?_cons, Rule.match?_mnemonic,
    if_neg fun hm => hnot (isName_of_isMnemonicName hm), List.findSome?_cons, Rule.match?_register,
    if_neg fun hr => hnot (isName_of_isRegisterName hr), Lexeme.first?, if_neg hupper]
  simp only [List.findSome?_cons, List.findSome?_nil, Rule.match?_run, hspace, if_neg hupper,
    beq_iff_eq]
  by_cases hblank : Text.isBlank c = true
  · simp [hblank]
  by_cases hcomma : c = ','
  · subst hcomma
    simp [hblank]
  by_cases hcomment : c = ';'
  · subst hcomment
    have hconstant : Lexeme.constant? .constant (';' :: cs) = none := rfl
    simp [hblank, hconstant]
  by_cases hequals : c = '='
  · subst hequals
    have hconstant : Lexeme.constant? .constant ('=' :: cs) = none := rfl
    simp [hblank, hconstant]
  · simp [hblank, hcomma, hcomment, hequals]

/-- Where a word goes on that is no name any more, no token begins. -/
theorem first?_of_isWord (hword : w.isWord c = true) (hname : isNameChar c = false) :
    Lexeme.first? gr8 (c :: cs) = none := by
  have hne : ∀ d : Char, w.isWord d = false → c ≠ d := by
    rintro d hd rfl
    rw [hword] at hd
    cases hd
  have hmark : ∀ d ∈ [',', ';', '=', '-', '#', quote], c ≠ d := by
    have hascii : [',', ';', '=', '-', '#', quote].all (fun d =>
        decide (d.toNat < 128) && !isAsciiWord d) = true := rfl
    intro d hd
    obtain ⟨hlow, hword⟩ := Bool.and_eq_true_iff.1 (List.all_eq_true.1 hascii d hd)
    exact hne d ((w.ascii d (of_decide_eq_true hlow)).trans (by simpa using hword))
  have hblank : Text.isBlank c = false := Bool.eq_false_iff.2 fun hb => hne c (w.blank c hb) rfl
  obtain ⟨hupper, hdigit⟩ := Bool.or_eq_false_iff.1 hname
  simp only [List.forall_mem_cons] at hmark
  obtain ⟨hcomma, hcomment, hequals, hminus, hhash, hquote, -⟩ := hmark
  simp [Lexeme.first?, Lexeme.constant?, hupper, hdigit, hblank, hcomma, hcomment, hequals, hminus,
    hhash, hquote]

end FirstMatch

end Token

end Comet
