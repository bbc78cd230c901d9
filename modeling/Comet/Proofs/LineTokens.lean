import Comet.Proofs.SourceSpans
import Comet.Proofs.TokenRules
import Comet.Proofs.Trailers

/-!
# The tokens of a line

A line is cut into tokens from left to right, by the first rule that matches at each place
(`Cut`). The tokens are the line, without gaps or overlaps, or else no rule matches somewhere and
the line has no tokens at all (`exists_tiling`).

The rules do not classify names by their text alone. Where a word goes on behind a name, the rule
for labels matches even if the name is that of an instruction. But no rule matches behind such a
name, so it never becomes a token, and in a line that has tokens names are classified by their
text (`isClassified_of_scan`).
-/

namespace Comet.Token

variable {w : WordClass} {gr8 : Bool} {line column : Nat} {cs rest : List Char} {l : Lexeme}
  {tokens : List Token}

/-! ## Rules and the scanner -/

theorem firstMatch?_nil : firstMatch? w gr8 [] = none := rfl

theorem firstMatch?_eq_none (h : Lexeme.first? gr8 cs = none) : firstMatch? w gr8 cs = none := by
  cases cs with
  | nil => exact firstMatch?_nil
  | cons c cs =>
    cases hupper : c.isUpper with
    | false => rw [firstMatch?_of_not_isUpper w gr8 cs hupper, h]
    | true =>
      rw [Lexeme.first?, if_pos hupper] at h
      cases h

/-- The rules take the same text as the scanner. Where they take it as something else, the line has
no tokens. -/
theorem exists_firstMatch? (w : WordClass) (h : Lexeme.first? gr8 cs = some l) :
    ∃ kind, firstMatch? w gr8 cs = some { l with kind } ∧
      (kind = l.kind ∨ l.rest ≠ [] ∧ Lexeme.first? gr8 l.rest = none) := by
  cases cs with
  | nil => cases h
  | cons c cs =>
    cases hupper : c.isUpper with
    | false => exact ⟨l.kind, (firstMatch?_of_not_isUpper w gr8 cs hupper).trans h, .inl rfl⟩
    | true =>
      rw [Lexeme.first?, if_pos hupper] at h
      cases h
      refine ⟨_, firstMatch?_of_isUpper w gr8 cs hupper, ?_⟩
      cases hedge : (cs.dropWhile isNameChar).head?.any w.isWord with
      | false => exact .inl rfl
      | true =>
        obtain ⟨d, hd, hword⟩ := (Option.any_eq_true _ _).1 hedge
        obtain ⟨rest, hrest⟩ := List.head?_eq_some_iff.1 hd
        have hname := Text.head?_dropWhile isNameChar cs d hd
        refine .inr ⟨by simp [Lexeme.run, hrest], ?_⟩
        rw [Lexeme.run, hrest]
        exact first?_of_isWord w gr8 rest hword hname

/-- Every rule takes a piece of the text that is not empty. -/
theorem splits_of_firstMatch? (h : firstMatch? w gr8 cs = some l) :
    l.Splits cs ∧ l.kind ≠ .endOfLine := by
  constructor
  · cases cs with
    | nil => cases h
    | cons c cs =>
      cases hupper : c.isUpper with
      | false =>
        rw [firstMatch?_of_not_isUpper w gr8 cs hupper] at h
        exact Lexeme.splits_of_first? h
      | true =>
        rw [firstMatch?_of_isUpper w gr8 cs hupper] at h
        cases h
        exact Lexeme.splits_run _ _ c cs
  · have hkinds : ∀ rule ∈ rules w gr8, rule.kind ≠ .endOfLine := by
      simp [rules, Rule.forms]
    obtain ⟨rule, hrule, hmatch⟩ := List.exists_of_findSome?_eq_some h
    obtain ⟨found, -, rfl⟩ := Option.map_eq_some_iff.1 hmatch
    exact hkinds rule hrule

/-! ## Cutting a line -/

/-- The rules cut the tokens off the text one after another, and leave the rest. -/
inductive Cut (w : WordClass) (gr8 : Bool) (line : Nat) :
    Nat → List Char → List Token → List Char → Prop
  | done {column : Nat} {cs : List Char} : Cut w gr8 line column cs [] cs
  | next {column : Nat} {cs rest : List Char} {l : Lexeme} {tokens : List Token}
      (first : firstMatch? w gr8 cs = some l)
      (cut : Cut w gr8 line (column + Text.byteLength l.text) l.rest tokens rest) :
      Cut w gr8 line column cs (ofText l.kind line column l.text :: tokens) rest

/-- Every token begins where the one before it ends, from the first column up to the second. -/
def Abut : Nat → List Token → Nat → Prop
  | column, [], stop => column = stop
  | column, token :: tokens, stop =>
    token.span.start = column ∧ Abut token.span.stop tokens stop

/-- The tokens are a text that begins at the column, without gaps or overlaps. -/
structure Tiles (column : Nat) (text : List Char) (tokens : List Token) : Prop where
  texts : tokens.flatMap (·.text.toList) = text
  nonempty : ∀ token ∈ tokens, token.text ≠ "" ∧ token.kind ≠ .endOfLine
  widths : ∀ token ∈ tokens, token.span.stop = token.span.start + token.text.utf8ByteSize
  abut : Abut column tokens (column + Text.byteLength text)

theorem tiles_nil (column : Nat) : Tiles column [] [] :=
  ⟨rfl, by simp, by simp, rfl⟩

theorem Tiles.cons {kind : Kind} {piece text : List Char} (hkind : kind ≠ .endOfLine)
    (hpiece : piece ≠ []) (h : Tiles (column + Text.byteLength piece) text tokens) :
    Tiles column (piece ++ text) (ofText kind line column piece :: tokens) where
  texts := by simp [ofText, h.texts]
  nonempty := by
    refine List.forall_mem_cons.2 ⟨⟨?_, hkind⟩, h.nonempty⟩
    intro hempty
    exact hpiece (String.ofList_eq_empty_iff.1 hempty)
  widths := by
    refine List.forall_mem_cons.2 ⟨?_, h.widths⟩
    rw [ofText, Text.utf8ByteSize_ofList]
    rfl
  abut := by
    refine ⟨rfl, ?_⟩
    rw [Text.byteLength_append, ← Nat.add_assoc]
    exact h.abut

/-- What is cut off tiles the front of the text. -/
theorem Cut.exists_tiles (h : Cut w gr8 line column cs tokens rest) :
    ∃ front, cs = front ++ rest ∧ Tiles column front tokens := by
  induction h with
  | done => exact ⟨[], rfl, tiles_nil _⟩
  | next first _ ih =>
    obtain ⟨front, hrest, htiles⟩ := ih
    obtain ⟨⟨hsplit, hne⟩, hkind⟩ := splits_of_firstMatch? first
    refine ⟨_, ?_, htiles.cons hkind hne⟩
    rw [List.append_assoc, ← hrest, hsplit]

theorem scanFrom_of_first?_eq_none (hne : cs ≠ []) (h : Lexeme.first? gr8 cs = none)
    (line column : Nat) : scanFrom gr8 line column cs = .error column := by
  rw [scanFrom, if_neg (by simpa using hne)]
  split
  · rfl
  · rename_i l hl
    rw [h] at hl
    cases hl

/-- The tokens of a line are cut off by the rules. A token of another kind would be followed by a
place where no token begins. -/
theorem exists_cut_of_scanFrom (w : WordClass) (h : scanFrom gr8 line column cs = .ok tokens) :
    ∃ inner, tokens = inner ++ [atLineEnd line (column + Text.byteLength cs)] ∧
      Cut w gr8 line column cs inner [] := by
  fun_induction scanFrom gr8 line column cs generalizing tokens with
  | case1 column cs hempty =>
    obtain rfl := List.isEmpty_iff.1 hempty
    cases h
    exact ⟨[], rfl, .done⟩
  | case2 => cases h
  | case3 column cs hempty l hl ih =>
    obtain ⟨tokens, hscan, rfl⟩ := Traversal.bind_pure_eq_ok.1 h
    obtain ⟨inner, rfl, hcut⟩ := ih hscan
    obtain ⟨kind, hmatch, rfl | ⟨hrest, hnone⟩⟩ := exists_firstMatch? w hl
    · refine ⟨ofText l.kind line column l.text :: inner, ?_, .next hmatch hcut⟩
      rw [← (Lexeme.splits_of_first? hl).1, Text.byteLength_append, Nat.add_assoc]
      rfl
    · rw [scanFrom_of_first?_eq_none hrest hnone] at hscan
      cases hscan

theorem exists_cut_of_error (w : WordClass) {stop : Nat}
    (h : scanFrom gr8 line column cs = .error stop) :
    ∃ inner rest, Cut w gr8 line column cs inner rest ∧ rest ≠ [] ∧
      firstMatch? w gr8 rest = none ∧
      stop + Text.byteLength rest = column + Text.byteLength cs := by
  fun_induction scanFrom gr8 line column cs with
  | case1 => cases h
  | case2 column cs hempty hnone =>
    cases h
    have hne : cs ≠ [] := fun hnil => hempty (List.isEmpty_iff.2 hnil)
    exact ⟨[], cs, .done, hne, firstMatch?_eq_none hnone, rfl⟩
  | case3 column cs hempty l hl ih =>
    obtain ⟨inner, rest, hcut, hne, hnone, hstop⟩ := ih (Traversal.bind_pure_eq_error.1 h)
    obtain ⟨kind, hmatch, -⟩ := exists_firstMatch? w hl
    refine ⟨_, rest, .next hmatch hcut, hne, hnone, ?_⟩
    rw [hstop, ← (Lexeme.splits_of_first? hl).1, Text.byteLength_append, Nat.add_assoc]

/-- A line is cut into tokens as a whole or not at all. Either its tokens tile it and an empty
token stands at its end, or the rules come to a place in the line where none of them matches, and
the one diagnostic reaches from there to the end of the line. -/
theorem exists_tiling (w : WordClass) (gr8 : Bool) (number : Nat) (source : String) :
    (∃ tokens, scan gr8 number source =
        .ok (tokens ++ [⟨"", .endOfLine, number, source.utf8ByteSize, source.utf8ByteSize⟩]) ∧
      Cut w gr8 number 0 source.toList tokens [] ∧ Tiles 0 source.toList tokens) ∨
    ∃ front rest tokens, source.toList = front ++ rest ∧ rest ≠ [] ∧
      Cut w gr8 number 0 source.toList tokens rest ∧ Tiles 0 front tokens ∧
      (∀ rule ∈ rules w gr8, rule.match? rest = none) ∧
      scan gr8 number source = .error
        ⟨⟨number, Text.byteLength front, source.utf8ByteSize⟩, .invalidLine⟩ := by
  cases h : scanFrom gr8 number 0 source.toList with
  | ok tokens =>
    obtain ⟨inner, rfl, hcut⟩ := exists_cut_of_scanFrom w h
    obtain ⟨front, hfront, htiles⟩ := hcut.exists_tiles
    refine .inl ⟨inner, ?_, hcut, ?_⟩
    · rw [scan_eq_ok_iff, h, Nat.zero_add, ← Text.utf8ByteSize_eq]
      rfl
    · rwa [hfront, List.append_nil]
  | error stop =>
    obtain ⟨inner, rest, hcut, hne, hnone, hstop⟩ := exists_cut_of_error w h
    obtain ⟨front, hfront, htiles⟩ := hcut.exists_tiles
    have hcolumn : stop = Text.byteLength front := by
      rw [hfront, Text.byteLength_append] at hstop
      omega
    have hrules := List.findSome?_eq_none_iff.1 hnone
    refine .inr ⟨front, rest, inner, hfront, hne, hcut, htiles, hrules, ?_⟩
    rw [scan_eq_error_iff]
    exact ⟨stop, h, by rw [hcolumn, Text.utf8ByteSize_eq]⟩

/-! ## Names -/

/-- The kinds of tokens that are names. -/
def Kind.isName : Kind → Bool
  | mnemonic | register | label => true
  | _ => false

/-- The names of instructions. -/
def mnemonicNames : List String := Mnemonic.table.map (·.name)

/-- The names of the registers that a program may name. -/
def registerNames (gr8 : Bool) : List String :=
  (Register.all.filter (Register.available gr8)).map Register.name

example : registerNames false = ["GR0", "GR1", "GR2", "GR3", "GR4", "GR5", "GR6", "GR7"] := by
  decide

/-- The token is a whole name, and its text says which kind of name it is. -/
structure IsClassified (gr8 : Bool) (source : String) (token : Token) : Prop where
  spelling : IsName token.text.toList
  /-- No letter in upper case and no digit follows. -/
  whole : ∃ before after, source.toList = before ++ (token.text.toList ++ after) ∧
    token.span = .ofText (Text.byteLength before) token.text.toList ∧
    ∀ c ∈ after.head?, isNameChar c = false
  mnemonic : token.kind = .mnemonic ↔ token.text ∈ mnemonicNames
  register : token.kind = .register ↔ token.text ∈ registerNames gr8
  label : token.kind = .label ↔ token.text ∉ mnemonicNames ∧ token.text ∉ registerNames gr8

theorem isMnemonicName_toList {name : String} :
    isMnemonicName name.toList = true ↔ name ∈ mnemonicNames := by
  rw [isMnemonicName_iff, String.ofList_toList, mnemonicNames, List.mem_map]

theorem isRegisterName_toList {name : String} :
    isRegisterName gr8 name.toList = true ↔ name ∈ registerNames gr8 := by
  rw [isRegisterName_iff, String.ofList_toList, registerNames, List.mem_map]
  simp [Register.mem_all]

/-- No register is named like an instruction. -/
theorem not_mem_mnemonicNames {name : String} (h : name ∈ registerNames gr8) :
    name ∉ mnemonicNames := by
  have hall : ∀ r ∈ Register.all, r.name ∉ mnemonicNames := by decide +kernel
  obtain ⟨r, hr, rfl⟩ := List.mem_map.1 h
  exact hall r (List.mem_of_mem_filter hr)

theorem Kind.ofName_eq_mnemonic {name : String} :
    Kind.ofName gr8 name = .mnemonic ↔ name ∈ mnemonicNames := by
  have hname := Kind.ofName_eq gr8 name.toList
  rw [String.ofList_toList] at hname
  rw [hname, ← isMnemonicName_toList]
  cases isMnemonicName name.toList <;> cases isRegisterName gr8 name.toList <;> decide

theorem Kind.ofName_eq_register {name : String} :
    Kind.ofName gr8 name = .register ↔ name ∈ registerNames gr8 := by
  have hname := Kind.ofName_eq gr8 name.toList
  rw [String.ofList_toList] at hname
  constructor
  · intro h
    rw [← isRegisterName_toList]
    rw [hname] at h
    revert h
    cases isMnemonicName name.toList <;> cases isRegisterName gr8 name.toList <;> decide
  · intro h
    have hmnemonic : isMnemonicName name.toList = false :=
      Bool.eq_false_iff.2 fun hm => not_mem_mnemonicNames h (isMnemonicName_toList.1 hm)
    rw [hname, hmnemonic, isRegisterName_toList.2 h]
    rfl

theorem Kind.ofName_eq_label {name : String} :
    Kind.ofName gr8 name = .label ↔ name ∉ mnemonicNames ∧ name ∉ registerNames gr8 := by
  have hmnemonic := @Kind.ofName_eq_mnemonic gr8 name
  rw [← hmnemonic, ← Kind.ofName_eq_register]
  rcases Kind.ofName_cases gr8 name with h | h | h <;> simp [h]

/-- A name is scanned as far as it goes. -/
theorem isNameChar_rest (h : Lexeme.first? gr8 cs = some l) (hname : IsName l.text) :
    ∀ c ∈ l.rest.head?, isNameChar c = false := by
  obtain ⟨hsplit, -⟩ := Lexeme.splits_of_first? h
  cases cs with
  | nil => cases h
  | cons c cs =>
    have hupper : c.isUpper = true := by
      cases htext : l.text with
      | nil =>
        rw [htext] at hname
        exact hname.elim
      | cons d text =>
        rw [htext] at hname hsplit
        cases hsplit
        exact hname.1
    rw [Lexeme.first?, if_pos hupper] at h
    cases h
    exact Text.head?_dropWhile isNameChar cs

/-- A token was the first one of what was left of the line. -/
theorem exists_first?_of_mem (h : scanFrom gr8 line column cs = .ok tokens) {token : Token}
    (htoken : token ∈ tokens) (hkind : token.kind ≠ .endOfLine) :
    ∃ before l, cs = before ++ (l.text ++ l.rest) ∧
      Lexeme.first? gr8 (l.text ++ l.rest) = some l ∧
      token = ofText l.kind line (column + Text.byteLength before) l.text := by
  fun_induction scanFrom gr8 line column cs generalizing tokens with
  | case1 column cs hempty =>
    cases h
    rw [List.mem_singleton.1 htoken] at hkind
    exact absurd rfl hkind
  | case2 => cases h
  | case3 column cs hempty l hl ih =>
    obtain ⟨tokens, hscan, rfl⟩ := Traversal.bind_pure_eq_ok.1 h
    have hsplit := (Lexeme.splits_of_first? hl).1
    rcases List.mem_cons.1 htoken with rfl | htoken
    · exact ⟨[], l, hsplit.symm, hsplit ▸ hl, rfl⟩
    · obtain ⟨before, l', hrest, hl', rfl⟩ := ih hscan htoken
      refine ⟨l.text ++ before, l', ?_, hl', ?_⟩
      · rw [List.append_assoc, ← hrest, hsplit]
      · rw [Text.byteLength_append, Nat.add_assoc]

theorem isClassified_of_mem {number : Nat} {source : String}
    (h : scan gr8 number source = .ok tokens) {token : Token} (htoken : token ∈ tokens)
    (hkind : token.kind.isName = true) : token.IsClassified gr8 source := by
  have hinner : token.kind ≠ .endOfLine := by
    intro hend
    rw [hend] at hkind
    cases hkind
  obtain ⟨before, l, hsource, hl, rfl⟩ := exists_first?_of_mem (scan_eq_ok_iff.1 h) htoken hinner
  obtain ⟨hname, hofName⟩ : IsName l.text ∧ l.kind = .ofName gr8 (String.ofList l.text) := by
    have hspelled := Lexeme.spelled_of_first? hl
    change l.kind.isName = true at hkind
    generalize l.kind = kind, l.text = text at hspelled hkind
    cases hspelled with
    | name hname hofName => exact ⟨hname, hofName⟩
    | _ => cases hkind
  constructor
  case spelling => simpa [ofText] using hname
  case whole =>
    refine ⟨before, l.rest, by simpa [ofText] using hsource, by simp [ofText], ?_⟩
    exact isNameChar_rest hl hname
  case mnemonic =>
    rw [ofText, hofName]
    exact Kind.ofName_eq_mnemonic
  case register =>
    rw [ofText, hofName]
    exact Kind.ofName_eq_register
  case label =>
    rw [ofText, hofName]
    exact Kind.ofName_eq_label

/-- Whatever the characters of words are, the tokens of a line are those that the rules cut off,
and a token that is a name is a whole name of the kind that its text says. -/
theorem isClassified_of_scan (w : WordClass) {number : Nat} {source : String}
    (h : scan gr8 number source = .ok tokens) :
    (∃ inner, tokens = inner ++ [atLineEnd number source.utf8ByteSize] ∧
      Cut w gr8 number 0 source.toList inner []) ∧
    ∀ token ∈ tokens, token.kind.isName = true → token.IsClassified gr8 source := by
  constructor
  · obtain ⟨inner, hinner, hcut⟩ := exists_cut_of_scanFrom w (scan_eq_ok_iff.1 h)
    rw [Nat.zero_add, ← Text.utf8ByteSize_eq] at hinner
    exact ⟨inner, hinner, hcut⟩
  · exact fun token htoken hkind => isClassified_of_mem h htoken hkind

/-- A label that begins like two instructions, and one that begins like a register. -/
def similarNames : String := "STARTS ST GR7,GR70,GR8 ; ST"

theorem isClassified_similarNames :
    ∃ tokens, scan false 3 similarNames = .ok tokens ∧
      (tokens.filter (·.kind.isName)).map (fun token => (token.text, token.kind)) =
        [("STARTS", .label), ("ST", .mnemonic), ("GR7", .register), ("GR70", .label),
          ("GR8", .label)] ∧
      (∃ inner, tokens = inner ++ [atLineEnd 3 27] ∧
        Cut WordClass.asciiOnly false 3 0 similarNames.toList inner []) ∧
      ∀ token ∈ tokens, token.kind.isName = true → token.IsClassified false similarNames := by
  have hscan : (scan false 3 similarNames).toOption.map (fun tokens =>
      (tokens.filter (·.kind.isName)).map (fun token => (token.text, token.kind))) =
      some [("STARTS", .label), ("ST", .mnemonic), ("GR7", .register), ("GR70", .label),
        ("GR8", .label)] := by decide +kernel
  obtain ⟨tokens, hscan, hnames⟩ := Option.map_eq_some_iff.1 hscan
  rw [Traversal.toOption_eq_some] at hscan
  obtain ⟨hcut, hclassified⟩ := isClassified_of_scan WordClass.asciiOnly hscan
  exact ⟨tokens, hscan, hnames, hcut, hclassified⟩

end Comet.Token
