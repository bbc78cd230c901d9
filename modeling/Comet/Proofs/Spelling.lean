import Comet.Token.Scan
import Mathlib.Data.List.TakeWhile

/-!
# The spelling of tokens

Reading a line relies on how its tokens are spelled: that the name of an
instruction is in the table, that a string constant has two quotes, that a label
is in upper case. `Spelled` says which texts the tokens of a kind have, and
`spelled_of_scan` that scanning gives no others.
-/

namespace Comet

/-- Behind a run stands nothing that belongs to it. -/
theorem Text.head?_dropWhile (p : Char → Bool) (cs : List Char) :
    ∀ c ∈ (cs.dropWhile p).head?, p c = false := by
  intro c hc
  have hnot := List.head?_dropWhile_not p cs
  rw [Option.mem_def.1 hc] at hnot
  simpa using hnot

/-- A run ends where its property does. -/
theorem Text.span_append {p : Char → Bool} {cs rest : List Char} (hcs : ∀ c ∈ cs, p c = true)
    (hrest : ∀ c ∈ rest.head?, p c = false) :
    (cs ++ rest).takeWhile p = cs ∧ (cs ++ rest).dropWhile p = rest := by
  have hstop : rest.takeWhile p = [] ∧ rest.dropWhile p = rest := by
    cases rest with
    | nil => exact ⟨rfl, rfl⟩
    | cons c rest =>
      have hc : ¬ p c = true := Bool.eq_false_iff.1 (hrest c rfl)
      exact ⟨List.takeWhile_cons_of_neg hc, List.dropWhile_cons_of_neg hc⟩
  rw [List.takeWhile_append_of_pos hcs, List.dropWhile_append_of_pos hcs, hstop.1, hstop.2,
    List.append_nil]
  exact ⟨rfl, rfl⟩

namespace Token

/-- A letter in upper case, then letters in upper case and digits. -/
def IsName : List Char → Prop
  | [] => False
  | c :: cs => c.isUpper = true ∧ ∀ d ∈ cs, isNameChar d = true

instance : DecidablePred IsName
  | [] => isFalse id
  | c :: cs => decidable_of_iff ((c.isUpper && cs.all isNameChar) = true) (by simp [IsName])

theorem isName_of_isUpper {cs : List Char} (hne : cs ≠ []) (h : ∀ c ∈ cs, c.isUpper = true) :
    IsName cs := by
  cases cs with
  | nil => exact hne rfl
  | cons c cs =>
    refine ⟨h c (.head cs), fun d hd => ?_⟩
    rw [isNameChar, h d (.tail c hd)]
    rfl

theorem isName_mnemonic {m : Mnemonic} (hm : m ∈ Mnemonic.table) : IsName m.name.toList :=
  isName_of_isUpper (Mnemonic.isUpper_name hm).1 (Mnemonic.isUpper_name hm).2

theorem isName_register (r : Register) : IsName r.name.toList := by
  cases r <;> decide

/-- The spellings of constants. The inside of a string is not looked at. -/
inductive IsConstant : ConstantForm → List Char → Prop
  | decimal {c : Char} {cs : List Char} (first : c.isDigit = true)
      (digits : ∀ d ∈ cs, d.isDigit = true) : IsConstant .decimal (c :: cs)
  | negative {cs : List Char} (nonempty : cs ≠ []) (digits : ∀ d ∈ cs, d.isDigit = true) :
      IsConstant .decimal ('-' :: cs)
  | hex {cs : List Char} (nonempty : cs ≠ []) (digits : ∀ d ∈ cs, isHexDigit d = true) :
      IsConstant .hex ('#' :: cs)
  | string {cs : List Char} (closed : cs.getLast? = some Text.Quoted.quote) :
      IsConstant .string (Text.Quoted.quote :: cs)

theorem Kind.ofName_cases (gr8 : Bool) (name : String) :
    Kind.ofName gr8 name = .mnemonic ∨ Kind.ofName gr8 name = .register ∨
      Kind.ofName gr8 name = .label := by
  rw [Kind.ofName]
  split
  · exact .inl rfl
  · split
    · exact .inr (.inl rfl)
    · exact .inr (.inr rfl)

theorem Kind.ofName_mnemonic {m : Mnemonic} (hm : m ∈ Mnemonic.table) (gr8 : Bool) :
    Kind.ofName gr8 m.name = .mnemonic := by
  rw [Kind.ofName, Mnemonic.ofName?_name hm]
  rfl

/-- The spellings of the tokens of a kind. -/
inductive Spelled (gr8 : Bool) : Kind → List Char → Prop
  | name {kind : Kind} {cs : List Char} (name : IsName cs)
      (kind_eq : kind = .ofName gr8 (String.ofList cs)) : Spelled gr8 kind cs
  | space {c : Char} {cs : List Char} (first : Text.isBlank c = true)
      (blanks : ∀ d ∈ cs, Text.isBlank d = true) : Spelled gr8 .space (c :: cs)
  | comma {cs : List Char} (blanks : ∀ d ∈ cs, Text.isBlank d = true) :
      Spelled gr8 .comma (',' :: cs)
  | constant {form : ConstantForm} {cs : List Char} (constant : IsConstant form cs) :
      Spelled gr8 (.constant form) cs
  | literal {form : ConstantForm} {cs : List Char} (constant : IsConstant form cs) :
      Spelled gr8 (.literal form) ('=' :: cs)
  | comment {cs : List Char} (line : ∀ d ∈ cs, (d != '\n') = true) :
      Spelled gr8 .comment (';' :: cs)
  | endOfLine : Spelled gr8 .endOfLine []

namespace Lexeme

variable {gr8 : Bool}

theorem marked?_eq_some {kind : Kind} {p : Char → Bool} {c : Char} {cs : List Char} {l : Lexeme}
    (h : marked? kind p c cs = some l) : cs.takeWhile p ≠ [] ∧ l = run kind p c cs := by
  rw [marked?] at h
  split at h
  · cases h
  · rename_i hne
    exact ⟨fun he => hne (List.isEmpty_iff.2 he), (Option.some.inj h).symm⟩

/-- A constant is spelled in its form, whichever kind of token it makes. -/
theorem isConstant_of_constant? {kind : ConstantForm → Kind} {cs : List Char} {l : Lexeme}
    (h : constant? kind cs = some l) : ∃ form, l.kind = kind form ∧ IsConstant form l.text := by
  cases cs with
  | nil => cases h
  | cons c cs =>
    rw [constant?] at h
    split at h
    · rename_i hdigit
      cases h
      exact ⟨.decimal, rfl, .decimal hdigit fun _ => List.mem_takeWhile_imp⟩
    split at h
    · rename_i hminus
      obtain ⟨hne, rfl⟩ := marked?_eq_some h
      subst hminus
      exact ⟨.decimal, rfl, .negative hne fun _ => List.mem_takeWhile_imp⟩
    split at h
    · rename_i hmark
      obtain ⟨hne, rfl⟩ := marked?_eq_some h
      subst hmark
      exact ⟨.hex, rfl, .hex hne fun _ => List.mem_takeWhile_imp⟩
    split at h
    · rename_i hquote
      obtain ⟨⟨inside, rest⟩, hclose, rfl⟩ := Option.map_eq_some_iff.1 h
      subst hquote
      exact ⟨.string, rfl, .string (Text.Quoted.getLast?_of_close? hclose)⟩
    · cases h

/-- The first token of a text is spelled as its kind demands. -/
theorem spelled_of_first? {cs : List Char} {l : Lexeme} (h : first? gr8 cs = some l) :
    Spelled gr8 l.kind l.text := by
  cases cs with
  | nil => cases h
  | cons c cs =>
    rw [first?] at h
    split at h
    · rename_i hupper
      cases h
      exact .name ⟨hupper, fun _ => List.mem_takeWhile_imp⟩ rfl
    split at h
    · rename_i hblank
      cases h
      exact .space hblank fun _ => List.mem_takeWhile_imp
    split at h
    · rename_i hcomma
      cases h
      subst hcomma
      exact .comma fun _ => List.mem_takeWhile_imp
    split at h
    · rename_i hcomment
      cases h
      subst hcomment
      exact .comment fun _ => List.mem_takeWhile_imp
    split at h
    · rename_i hequals
      obtain ⟨l', hl, rfl⟩ := Option.map_eq_some_iff.1 h
      obtain ⟨form, hkind, hconstant⟩ := isConstant_of_constant? hl
      subst hequals
      rw [hkind]
      exact .literal hconstant
    · obtain ⟨form, hkind, hconstant⟩ := isConstant_of_constant? h
      rw [hkind]
      exact .constant hconstant

end Lexeme

variable {gr8 : Bool}

/-- A token that is spelled as its kind demands. -/
def IsSpelled (gr8 : Bool) (token : Token) : Prop :=
  Spelled gr8 token.kind token.text.toList

/-- Scanning a text scans its first token and then the rest. -/
theorem scanFrom_of_first? {cs : List Char} {l : Lexeme} (h : Lexeme.first? gr8 cs = some l)
    (line column : Nat) :
    scanFrom gr8 line column cs =
      (scanFrom gr8 line (column + Text.byteLength l.text) l.rest).map
        (ofText l.kind line column l.text :: ·) := by
  rw [scanFrom]
  cases cs with
  | nil => cases h
  | cons c cs =>
    split
    · rename_i hempty
      cases hempty
    · split
      · rename_i hnone
        rw [h] at hnone
        cases hnone
      · rename_i l' hsome
        rw [h] at hsome
        cases hsome
        rfl

/-- What holds of every first token holds of all tokens of a text. -/
theorem forall_mem_of_scanFrom {P : Kind → List Char → Prop}
    (hfirst : ∀ cs l, Lexeme.first? gr8 cs = some l → P l.kind l.text) (hend : P .endOfLine [])
    {line column : Nat} {cs : List Char} {tokens : List Token}
    (h : scanFrom gr8 line column cs = .ok tokens) : ∀ t ∈ tokens, P t.kind t.text.toList := by
  fun_induction scanFrom gr8 line column cs generalizing tokens with
  | case1 column cs hempty =>
    cases h
    simpa [atLineEnd, ofText] using hend
  | case2 => cases h
  | case3 column cs hempty l hl ih =>
    cases hrest : scanFrom gr8 line (column + Text.byteLength l.text) l.rest with
    | error e => simp [hrest, bind, Except.bind] at h
    | ok rest =>
      have htokens : ofText l.kind line column l.text :: rest = tokens := by
        simpa [hrest, bind, Except.bind, pure, Except.pure] using h
      subst htokens
      refine List.forall_mem_cons.2 ⟨?_, ih hrest⟩
      simpa [ofText] using hfirst cs l hl

theorem spelled_of_scanFrom {line column : Nat} {cs : List Char} {tokens : List Token}
    (h : scanFrom gr8 line column cs = .ok tokens) : ∀ t ∈ tokens, t.IsSpelled gr8 :=
  forall_mem_of_scanFrom (fun _ _ => Lexeme.spelled_of_first?) .endOfLine h

theorem scan_eq_ok_iff {number : Nat} {source : String} {tokens : List Token} :
    scan gr8 number source = .ok tokens ↔ scanFrom gr8 number 0 source.toList = .ok tokens := by
  rw [scan]
  cases scanFrom gr8 number 0 source.toList <;> simp

theorem scan_eq_error_iff {number : Nat} {source : String} {d : Diagnostic} :
    scan gr8 number source = .error d ↔
      ∃ column, scanFrom gr8 number 0 source.toList = .error column ∧
        d = ⟨⟨number, column, Text.byteLength source.toList⟩, .invalidLine⟩ := by
  rw [scan]
  cases scanFrom gr8 number 0 source.toList <;> simp [eq_comm]

/-- Every token of a line is spelled as its kind demands. -/
theorem spelled_of_scan {line : Nat} {source : String} {tokens : List Token}
    (h : scan gr8 line source = .ok tokens) : ∀ t ∈ tokens, t.IsSpelled gr8 :=
  spelled_of_scanFrom (scan_eq_ok_iff.1 h)

namespace IsSpelled

variable {token : Token}

theorem ofName?_isSome (h : token.IsSpelled gr8) (hkind : token.kind = .mnemonic) :
    (Mnemonic.ofName? token.text).isSome = true := by
  rw [IsSpelled, hkind] at h
  cases h with
  | name _ kind_eq =>
    rw [String.ofList_toList, Kind.ofName] at kind_eq
    split at kind_eq
    · assumption
    · split at kind_eq <;> cases kind_eq

theorem exists_register (h : token.IsSpelled gr8) (hkind : token.kind = .register) :
    ∃ r, Register.ofName? token.text = some r := by
  rw [IsSpelled, hkind] at h
  cases h with
  | name _ kind_eq =>
    rw [String.ofList_toList, Kind.ofName] at kind_eq
    split at kind_eq
    · cases kind_eq
    split at kind_eq
    · rename_i havailable
      cases hr : Register.ofName? token.text with
      | none =>
        rw [hr] at havailable
        cases havailable
      | some r => exact ⟨r, rfl⟩
    · cases kind_eq

theorem isName (h : token.IsSpelled gr8) (hkind : token.kind = .label ∨ token.kind = .mnemonic) :
    IsName token.text.toList := by
  rw [IsSpelled] at h
  rcases hkind with hkind | hkind <;> rw [hkind] at h <;> cases h <;> assumption

theorem constant (h : token.IsSpelled gr8) {form : ConstantForm}
    (hkind : token.kind = .constant form) : IsConstant form token.text.toList := by
  rw [IsSpelled, hkind] at h
  generalize token.text.toList = cs at h
  cases h with
  | name _ kind_eq =>
    rcases Kind.ofName_cases gr8 (String.ofList cs) with h | h | h <;>
      rw [h] at kind_eq <;> cases kind_eq
  | constant hconstant => exact hconstant

theorem literal (h : token.IsSpelled gr8) {form : ConstantForm}
    (hkind : token.kind = .literal form) :
    ∃ cs, token.text.toList = '=' :: cs ∧ IsConstant form cs := by
  rw [IsSpelled, hkind] at h
  generalize token.text.toList = cs at h ⊢
  cases h with
  | name _ kind_eq =>
    rcases Kind.ofName_cases gr8 (String.ofList cs) with h | h | h <;>
      rw [h] at kind_eq <;> cases kind_eq
  | literal hconstant => exact ⟨_, rfl, hconstant⟩

end IsSpelled

end Token

end Comet
