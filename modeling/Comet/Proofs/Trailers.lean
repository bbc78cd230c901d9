import Comet.Proofs.LineGrammar
import Comet.Proofs.Rescanning

/-!
# What may be added to the end of a line

A silent text is a text of blanks, perhaps with a comment behind them. It is scanned into
the trailer of a line, and so is a silent text that has another one added to it.

Adding a silent text to a line changes nothing else: a blank or a comma of a statement is
followed by a name or a constant, so it does not reach the end of the line, and a name or
a constant is the same before every separator (`exists_resumes`). Hence the longer line
writes the same statement (`readLine_append`). The line may move to another place, too.
-/

namespace Comet

namespace Text

/-- Blanks and then nothing or a comment, on one line. -/
structure IsSilent (cs : List Char) : Prop where
  single : '\n' ∉ cs
  form : ∃ blanks rest, cs = blanks ++ rest ∧ (∀ c ∈ blanks, isBlank c = true) ∧
    ∀ c ∈ rest.head?, c = ';'

theorem isSilent_iff {cs : List Char} :
    IsSilent cs ↔ '\n' ∉ cs ∧ (cs.dropWhile isBlank).head?.all (· == ';') = true := by
  simp only [Option.all_eq_true, beq_iff_eq]
  constructor
  · rintro ⟨hsingle, blanks, rest, rfl, hblanks, hrest⟩
    have hstop : ∀ c ∈ rest.head?, isBlank c = false := by
      intro c hc
      rw [hrest c hc]
      rfl
    rw [(span_append hblanks hstop).2]
    exact ⟨hsingle, hrest⟩
  · rintro ⟨hsingle, hrest⟩
    exact ⟨hsingle, cs.takeWhile isBlank, cs.dropWhile isBlank,
      List.takeWhile_append_dropWhile.symm, fun _ => List.mem_takeWhile_imp, hrest⟩

instance (cs : List Char) : Decidable (IsSilent cs) := decidable_of_iff _ isSilent_iff.symm

theorem IsSilent.append {cs ext : List Char} (h : IsSilent cs) (hext : IsSilent ext) :
    IsSilent (cs ++ ext) := by
  have hsingle : '\n' ∉ cs ++ ext := by simpa using ⟨h.single, hext.single⟩
  obtain ⟨blanks, rest, rfl, hblanks, hrest⟩ := h.form
  cases rest with
  | nil =>
    obtain ⟨blanks', rest', rfl, hblanks', hrest'⟩ := hext.form
    refine ⟨hsingle, blanks ++ blanks', rest', by simp, ?_, hrest'⟩
    exact List.forall_mem_append.2 ⟨hblanks, hblanks'⟩
  | cons c rest =>
    refine ⟨hsingle, blanks, c :: rest ++ ext, List.append_assoc .., hblanks, ?_⟩
    simpa using hrest

/-- A silent text separates what stands before it from the rest of the line. -/
theorem IsSilent.separates {cs : List Char} (h : IsSilent cs) : Quoted.separates cs = true := by
  obtain ⟨blanks, rest, rfl, hblanks, hrest⟩ := h.form
  cases blanks with
  | cons c blanks =>
    have hblank := hblanks c (.head _)
    simp [Quoted.separates, hblank]
  | nil =>
    cases rest with
    | nil => rfl
    | cons c rest =>
      obtain rfl := hrest c rfl
      rfl

end Text

namespace Token

variable {gr8 : Bool} {line column : Nat} {cs : List Char}

/-- The token on another line. -/
def relocated (line : Nat) (token : Token) : Token := { token with line }

/-! ## One token -/

theorem Kind.ne_ofName {kind : Kind} (h : kind.isItem = false) (gr8 : Bool) (name : String) :
    kind ≠ .ofName gr8 name := by
  rintro rfl
  rcases Kind.ofName_cases gr8 name with hname | hname | hname <;> rw [hname] at h <;> cases h

theorem Kind.isItem_of_isMark {kind : Kind} (h : kind.isMark = true) : kind.isItem = false := by
  cases kind with
  | space | comma => rfl
  | _ => cases h

theorem Kind.ne_endOfLine {kind : Kind} (h : kind.isMark = true ∨ kind.isItem = true) :
    kind ≠ .endOfLine := by
  rintro rfl
  rcases h with h | h <;> cases h

/-- Only the end of a line is an empty token. -/
theorem kind_ne_endOfLine {l : Lexeme} (h : Lexeme.first? gr8 cs = some l) :
    l.kind ≠ .endOfLine := by
  intro hkind
  have hspelled := Lexeme.spelled_of_first? h
  have hne := (Lexeme.splits_of_first? h).2
  rw [hkind] at hspelled
  generalize l.text = text at hspelled hne
  cases hspelled with
  | endOfLine => exact hne rfl
  | name _ hname => exact absurd hname (Kind.ne_ofName rfl gr8 _)

/-- What a scan that gives a token has done first. -/
theorem scanFrom_eq_cons {token : Token} {tokens : List Token}
    (h : scanFrom gr8 line column cs = .ok (token :: tokens)) :
    (cs = [] ∧ token.kind = .endOfLine ∧ tokens = []) ∨
      ∃ l, Lexeme.first? gr8 cs = some l ∧ token = ofText l.kind line column l.text ∧
        scanFrom gr8 line (column + Text.byteLength l.text) l.rest = .ok tokens := by
  rw [scanFrom] at h
  split at h
  · rename_i hempty
    cases h
    exact .inl ⟨List.isEmpty_iff.1 hempty, rfl, rfl⟩
  · split at h
    · cases h
    · rename_i l hl
      obtain ⟨rest, hrest, heq⟩ := Traversal.bind_pure_eq_ok.1 h
      cases heq
      exact .inr ⟨l, hl, rfl, hrest⟩

theorem exists_first?_of_scanFrom {token : Token} {tokens : List Token}
    (h : scanFrom gr8 line column cs = .ok (token :: tokens)) (hkind : token.kind ≠ .endOfLine) :
    ∃ l, Lexeme.first? gr8 cs = some l ∧ token = ofText l.kind line column l.text ∧
      scanFrom gr8 line (column + Text.byteLength l.text) l.rest = .ok tokens := by
  rcases scanFrom_eq_cons h with ⟨-, hend, -⟩ | hfirst
  · exact absurd hend hkind
  · exact hfirst

theorem eq_nil_of_scanFrom {token : Token} {tokens : List Token}
    (h : scanFrom gr8 line column cs = .ok (token :: tokens)) (hkind : token.kind = .endOfLine) :
    cs = [] := by
  rcases scanFrom_eq_cons h with ⟨hnil, -⟩ | ⟨l, hl, rfl, -⟩
  · exact hnil
  · exact absurd hkind (kind_ne_endOfLine hl)

/-- A run that does not reach the end of a text ends at the same place if the text goes on. -/
theorem Lexeme.run_append_of_rest {kind : Kind} {p : Char → Bool} {c : Char}
    (hrest : (run kind p c cs).rest ≠ []) (ext : List Char) :
    run kind p c (cs ++ ext) =
      { run kind p c cs with rest := (run kind p c cs).rest ++ ext } := by
  have hsplit : cs ++ ext = cs.takeWhile p ++ (cs.dropWhile p ++ ext) := by
    rw [← List.append_assoc, List.takeWhile_append_dropWhile]
  have hstop : ∀ d ∈ (cs.dropWhile p ++ ext).head?, p d = false := by
    have hhead : (cs.dropWhile p ++ ext).head? = (cs.dropWhile p).head? :=
      List.head?_append_of_ne_nil _ hrest
    rw [hhead]
    exact Text.head?_dropWhile p cs
  rw [hsplit, run_append kind c (fun _ => List.mem_takeWhile_imp) hstop]
  rfl

/-- Blanks and commas are runs of blanks, whatever follows their first character. -/
theorem exists_run_of_isMark {l : Lexeme} (h : Lexeme.first? gr8 cs = some l)
    (hkind : l.kind.isMark = true) :
    ∃ c rest, cs = c :: rest ∧ l = Lexeme.run l.kind Text.isBlank c rest ∧
      ∀ rest', Lexeme.first? gr8 (c :: rest') = some (Lexeme.run l.kind Text.isBlank c rest') := by
  cases cs with
  | nil => cases h
  | cons c rest =>
    refine ⟨c, rest, rfl, ?_⟩
    rw [Lexeme.first?] at h
    split at h
    · cases h
      exact absurd rfl (Kind.ne_ofName (Kind.isItem_of_isMark hkind) gr8 _)
    rename_i hupper
    split at h
    · rename_i hblank
      cases h
      refine ⟨rfl, fun rest' => ?_⟩
      rw [Lexeme.first?, if_neg hupper, if_pos hblank]
      rfl
    rename_i hblank
    split at h
    · rename_i hcomma
      cases h
      refine ⟨rfl, fun rest' => ?_⟩
      rw [Lexeme.first?, if_neg hupper, if_neg hblank, if_pos hcomma]
      rfl
    split at h
    · cases h
      cases hkind
    split at h
    · obtain ⟨l', hl', rfl⟩ := Option.map_eq_some_iff.1 h
      obtain ⟨form, hform, -⟩ := Lexeme.isConstant_of_constant? hl'
      rw [hform] at hkind
      cases hkind
    · obtain ⟨form, hform, -⟩ := Lexeme.isConstant_of_constant? h
      rw [hform] at hkind
      cases hkind

/-- A blank or a comma that is followed by something is the same if the text goes on. -/
theorem first?_append_of_isMark {l : Lexeme} (h : Lexeme.first? gr8 cs = some l)
    (hkind : l.kind.isMark = true) (hrest : l.rest ≠ []) (ext : List Char) :
    Lexeme.first? gr8 (cs ++ ext) = some { l with rest := l.rest ++ ext } := by
  obtain ⟨c, rest, rfl, hl, hfirst⟩ := exists_run_of_isMark h hkind
  rw [hl] at hrest
  rw [List.cons_append, hfirst, Lexeme.run_append_of_rest hrest, ← hl]

/-- A name or a constant before a separator is the same if the text goes on. -/
theorem first?_append_of_isItem {l : Lexeme} (h : Lexeme.first? gr8 cs = some l)
    (hkind : l.kind.isItem = true) {ext : List Char}
    (hseparates : Text.Quoted.separates (l.rest ++ ext) = true) :
    Lexeme.first? gr8 (cs ++ ext) = some { l with rest := l.rest ++ ext } := by
  rw [← (Lexeme.splits_of_first? h).1, List.append_assoc]
  exact standsAlone_of_first? h hkind _ hseparates

/-- Blanks and commas separate. -/
theorem separates_of_isMark {l : Lexeme} (h : Lexeme.first? gr8 cs = some l)
    (hkind : l.kind.isMark = true) (ext : List Char) :
    Text.Quoted.separates (cs ++ ext) = true := by
  have hspelled := Lexeme.spelled_of_first? h
  rw [← (Lexeme.splits_of_first? h).1, List.append_assoc]
  generalize l.kind = kind, l.text = text at hspelled hkind
  cases hspelled with
  | space first => simp [Text.Quoted.separates, first]
  | comma => simp [Text.Quoted.separates]
  | name _ hname => exact absurd hname (Kind.ne_ofName (Kind.isItem_of_isMark hkind) gr8 _)
  | _ => cases hkind

/-! ## The tokens of a statement -/

/-- Names and constants, each with a blank or a comma before it. -/
inductive Separated : List Token → Prop
  | nil : Separated []
  | cons {mark item : Token} {tokens : List Token} (mark_kind : mark.kind.isMark = true)
      (item_kind : item.kind.isItem = true) (rest : Separated tokens) :
      Separated (mark :: item :: tokens)

/-- Names and constants with blanks and commas between them, and perhaps one before them. -/
inductive IsFront : List Token → Prop
  | separated {tokens : List Token} (separated : Separated tokens) : IsFront tokens
  | item {token : Token} {tokens : List Token} (kind : token.kind.isItem = true)
      (separated : Separated tokens) : IsFront (token :: tokens)

/-- If the text goes on after a separator and moves to another line, then the tokens of its
front stay the same and the rest of it is scanned with what follows. -/
def Resumes (gr8 : Bool) (column : Nat) (cs : List Char) (front : List Token) (column' : Nat)
    (tail : List Char) : Prop :=
  ∀ ext, Text.Quoted.separates (tail ++ ext) = true → ∀ line',
    scanFrom gr8 line' column (cs ++ ext) =
      (scanFrom gr8 line' column' (tail ++ ext)).map (front.map (relocated line') ++ ·)

theorem resumes_nil (gr8 : Bool) (column : Nat) (cs : List Char) :
    Resumes gr8 column cs [] column cs := by
  intro ext _ line'
  cases scanFrom gr8 line' column (cs ++ ext) <;> rfl

theorem Resumes.cons {l : Lexeme} {column' : Nat} {tail : List Char} {tokens : List Token}
    (hl : ∀ ext, Text.Quoted.separates (tail ++ ext) = true →
      Lexeme.first? gr8 (cs ++ ext) = some { l with rest := l.rest ++ ext })
    (h : Resumes gr8 (column + Text.byteLength l.text) l.rest tokens column' tail) (line : Nat) :
    Resumes gr8 column cs (ofText l.kind line column l.text :: tokens) column' tail := by
  intro ext hseparates line'
  rw [scanFrom_of_first? (hl ext hseparates), h ext hseparates line']
  cases scanFrom gr8 line' column' (tail ++ ext) <;> rfl

theorem exists_resumes_of_separated {front trailer : List Token} (hfront : Separated front)
    (h : scanFrom gr8 line column cs = .ok (front ++ trailer)) :
    ∃ column' tail, scanFrom gr8 line column' tail = .ok trailer ∧ tail <:+ cs ∧
      Resumes gr8 column cs front column' tail ∧
      ∀ ext, Text.Quoted.separates (tail ++ ext) = true →
        Text.Quoted.separates (cs ++ ext) = true := by
  induction hfront generalizing column cs with
  | nil =>
    exact ⟨column, cs, h, List.suffix_rfl, resumes_nil gr8 column cs, fun _ hsep => hsep⟩
  | cons mark_kind item_kind rest ih =>
    obtain ⟨l, hl, rfl, hmark⟩ := exists_first?_of_scanFrom h (Kind.ne_endOfLine (.inl mark_kind))
    obtain ⟨m, hm, rfl, hitem⟩ :=
      exists_first?_of_scanFrom hmark (Kind.ne_endOfLine (.inr item_kind))
    obtain ⟨column', tail, htail, hsuffix, hresumes, hseparates⟩ := ih hitem
    have hrest : l.rest ≠ [] := by
      intro hnil
      rw [hnil] at hm
      cases hm
    have hitems := Resumes.cons
      (fun ext hsep => first?_append_of_isItem hm item_kind (hseparates ext hsep)) hresumes line
    have hmarks := Resumes.cons
      (fun ext _ => first?_append_of_isMark hl mark_kind hrest ext) hitems line
    refine ⟨column', tail, htail, ?_, hmarks, fun ext _ => separates_of_isMark hl mark_kind ext⟩
    have hsplit := (Lexeme.splits_of_first? hl).1
    have hsplit' := (Lexeme.splits_of_first? hm).1
    exact hsuffix.trans ((hsplit' ▸ List.suffix_append _ _ : m.rest <:+ l.rest).trans
      (hsplit ▸ List.suffix_append _ _))

/-- What follows the front of a line can be replaced. -/
theorem exists_resumes {front trailer : List Token} (hfront : IsFront front)
    (h : scanFrom gr8 line column cs = .ok (front ++ trailer)) :
    ∃ column' tail, scanFrom gr8 line column' tail = .ok trailer ∧ tail <:+ cs ∧
      Resumes gr8 column cs front column' tail := by
  cases hfront with
  | separated separated =>
    obtain ⟨column', tail, htail, hsuffix, hresumes, -⟩ := exists_resumes_of_separated separated h
    exact ⟨column', tail, htail, hsuffix, hresumes⟩
  | item kind separated =>
    obtain ⟨l, hl, rfl, hscan⟩ := exists_first?_of_scanFrom h (Kind.ne_endOfLine (.inr kind))
    obtain ⟨column', tail, htail, hsuffix, hresumes, hseparates⟩ :=
      exists_resumes_of_separated separated hscan
    have hsplit := (Lexeme.splits_of_first? hl).1
    exact ⟨column', tail, htail, hsuffix.trans (hsplit ▸ List.suffix_append _ _),
      Resumes.cons (fun ext hsep => first?_append_of_isItem hl kind (hseparates ext hsep)) hresumes
        line⟩

/-! ## Silent texts -/

theorem head?_of_scanFrom {comment : Option Token} {stop : Token}
    (h : scanFrom gr8 line column cs = .ok (comment.toList ++ [stop]))
    (hcomment : ∀ t ∈ comment, t.kind = .comment) (hstop : stop.kind = .endOfLine) :
    ∀ c ∈ cs.head?, c = ';' := by
  cases comment with
  | none =>
    rw [eq_nil_of_scanFrom h hstop]
    simp
  | some comment =>
    have hkind := hcomment comment rfl
    obtain ⟨l, hl, rfl, -⟩ := exists_first?_of_scanFrom h (by simp [hkind])
    have hspelled := Lexeme.spelled_of_first? hl
    rw [← (Lexeme.splits_of_first? hl).1]
    change l.kind = .comment at hkind
    rw [hkind] at hspelled
    generalize l.text = text at hspelled
    cases hspelled with
    | comment => simp
    | name _ hname => exact absurd hname (Kind.ne_ofName rfl gr8 _)

/-- What is scanned into a trailer is silent. -/
theorem isSilent_of_scanFrom {trailer : List Token}
    (h : scanFrom gr8 line column cs = .ok trailer) (htrailer : Statement.IsTrailer trailer)
    (hsingle : '\n' ∉ cs) : Text.IsSilent cs := by
  cases htrailer with
  | @mk blank comment stop blank_kind comment_kind stop_kind =>
    cases blank with
    | none => exact ⟨hsingle, [], cs, rfl, by simp, head?_of_scanFrom h comment_kind stop_kind⟩
    | some blank =>
      have hkind := blank_kind blank rfl
      obtain ⟨l, hl, rfl, hrest⟩ := exists_first?_of_scanFrom h (by simp [hkind])
      refine ⟨hsingle, l.text, l.rest, (Lexeme.splits_of_first? hl).1.symm, ?_,
        head?_of_scanFrom hrest comment_kind stop_kind⟩
      have hspelled := Lexeme.spelled_of_first? hl
      change l.kind = .space at hkind
      rw [hkind] at hspelled
      generalize l.text = text at hspelled
      cases hspelled with
      | space first blanks => exact List.forall_mem_cons.2 ⟨first, blanks⟩
      | name _ hname => exact absurd hname (Kind.ne_ofName rfl gr8 _)

theorem exists_scanFrom_comment (gr8 : Bool) (line column : Nat) (hsingle : '\n' ∉ cs)
    (h : ∀ c ∈ cs.head?, c = ';') :
    ∃ comment stop, scanFrom gr8 line column cs = .ok (Option.toList comment ++ [stop]) ∧
      (∀ t ∈ comment, t.kind = .comment) ∧ stop.kind = .endOfLine := by
  cases cs with
  | nil =>
    refine ⟨none, atLineEnd line column, ?_, by simp, rfl⟩
    rw [scanFrom]
    rfl
  | cons c cs =>
    obtain rfl := h c rfl
    have hline : ∀ d ∈ cs, (d != '\n') = true := fun d hd =>
      bne_iff_ne.2 fun heq => hsingle (.tail _ (heq ▸ hd))
    have hstop : ∀ d ∈ ([] : List Char).head?, (d != '\n') = false := by simp
    have hrun := Lexeme.run_append .comment ';' hline hstop
    rw [List.append_nil] at hrun
    have hfirst : Lexeme.first? gr8 (';' :: cs) = some ⟨.comment, ';' :: cs, []⟩ :=
      congrArg some hrun
    refine ⟨some (ofText .comment line column (';' :: cs)),
      atLineEnd line (column + Text.byteLength (';' :: cs)), ?_, by simp [ofText], rfl⟩
    rw [scanFrom_of_first? hfirst, scanFrom]
    rfl

/-- Conversely, a silent text is scanned into a trailer. -/
theorem exists_scanFrom_of_isSilent (gr8 : Bool) (line column : Nat) (h : Text.IsSilent cs) :
    ∃ trailer, scanFrom gr8 line column cs = .ok trailer ∧ Statement.IsTrailer trailer := by
  obtain ⟨hsingle, blanks, rest, rfl, hblanks, hrest⟩ := h
  have hsingle' : '\n' ∉ rest := fun hmem => hsingle (List.mem_append_right _ hmem)
  cases blanks with
  | nil =>
    obtain ⟨comment, stop, hscan, hcomment, hstop⟩ :=
      exists_scanFrom_comment gr8 line column hsingle' hrest
    exact ⟨_, hscan, @Statement.IsTrailer.mk none comment stop (by simp) hcomment hstop⟩
  | cons c blanks =>
    have hblank : Text.isBlank c = true := hblanks c (.head _)
    have hupper : ¬ c.isUpper = true := by
      intro hupper
      rw [Text.isBlank_eq_false_of_isAlphanum (.inl hupper)] at hblank
      cases hblank
    have hstop : ∀ d ∈ rest.head?, Text.isBlank d = false := by
      intro d hd
      rw [hrest d hd]
      rfl
    have hfirst : Lexeme.first? gr8 (c :: blanks ++ rest) =
        some ⟨.space, c :: blanks, rest⟩ := by
      rw [List.cons_append, Lexeme.first?, if_neg hupper, if_pos hblank,
        Lexeme.run_append _ c (fun d hd => hblanks d (.tail _ hd)) hstop]
    obtain ⟨comment, stop, hscan, hcomment, hstop⟩ := exists_scanFrom_comment gr8 line
      (column + Text.byteLength (c :: blanks)) hsingle' hrest
    refine ⟨ofText .space line column (c :: blanks) :: (comment.toList ++ [stop]), ?_, ?_⟩
    · rw [scanFrom_of_first? hfirst, hscan]
      rfl
    · exact @Statement.IsTrailer.mk (some (ofText .space line column (c :: blanks))) comment stop
        (by simp [ofText]) hcomment hstop

/-! ## The statement of a line -/

section Items

variable {token : Token}

theorem IsSymbol.isItem (h : token.IsSymbol) : token.kind.isItem = true := by
  rcases h.kind with hkind | hkind <;> rw [hkind] <;> rfl

theorem IsRegister.isItem {r : Register} (h : token.IsRegister r) : token.kind.isItem = true := by
  rw [h.kind]
  rfl

theorem WritesAddress.isItem {adr : Operand} (h : token.WritesAddress adr) :
    token.kind.isItem = true := by
  cases h with
  | number kind | literal kind =>
    rw [kind]
    rfl
  | symbol symbol => exact symbol.isItem

theorem WritesData.isItem {words : List Operand} (h : token.WritesData words) :
    token.kind.isItem = true := by
  cases h with
  | constant kind =>
    rw [kind]
    rfl
  | symbol symbol => exact symbol.isItem

theorem isMark_of_space (h : token.kind = .space) : token.kind.isMark = true := by
  rw [h]
  rfl

theorem isMark_of_comma (h : token.kind = .comma) : token.kind.isMark = true := by
  rw [h]
  rfl

/-! A token stands for the same on every line. -/

theorem IsSymbol.relocated (h : token.IsSymbol) (line : Nat) : (token.relocated line).IsSymbol :=
  ⟨h.kind, h.unreserved⟩

theorem IsRegister.relocated {r : Register} (h : token.IsRegister r) (line : Nat) :
    (token.relocated line).IsRegister r :=
  ⟨h.kind, h.name⟩

theorem WritesAddress.relocated {adr : Operand} (h : token.WritesAddress adr) (line : Nat) :
    (token.relocated line).WritesAddress adr := by
  cases h with
  | number kind number constant => exact .number kind number constant
  | symbol symbol => exact .symbol (symbol.relocated line)
  | literal kind text constant => exact .literal kind text constant

theorem WritesData.relocated {words : List Operand} (h : token.WritesData words) (line : Nat) :
    (token.relocated line).WritesData words := by
  cases h with
  | constant kind constant => exact .constant kind constant
  | symbol symbol => exact .symbol (symbol.relocated line)

end Items

end Token

namespace Statement

open Token

variable {tokens : List Token}

theorem separated_of_isIndex {x : Option Register} (h : IsIndex tokens x) : Separated tokens := by
  cases h with
  | absent => exact .nil
  | present separator register => exact .cons (isMark_of_comma separator) register.isItem .nil

theorem separated_of_isConstantList {words : List Operand} (h : IsConstantList tokens words)
    {mark : Token} (hmark : mark.kind.isMark = true) : Separated (mark :: tokens) := by
  induction h generalizing mark with
  | last data => exact .cons hmark data.isItem .nil
  | more data separator _ ih => exact .cons hmark data.isItem (ih (isMark_of_comma separator))

theorem separated_of_isOperandList {m : Mnemonic} {operands : Operands}
    (h : IsOperandList m tokens operands) : Separated tokens := by
  cases h with
  | none | noEntry => exact .nil
  | register _ blank register => exact .cons (isMark_of_space blank) register.isItem .nil
  | address _ blank address index =>
    exact .cons (isMark_of_space blank) address.isItem (separated_of_isIndex index)
  | registerAddress _ blank register separator address index =>
    exact .cons (isMark_of_space blank) register.isItem
      (.cons (isMark_of_comma separator) address.isItem (separated_of_isIndex index))
  | registers _ blank register separator register' =>
    exact .cons (isMark_of_space blank) register.isItem
      (.cons (isMark_of_comma separator) register'.isItem .nil)
  | buffer _ blank address separator address' =>
    exact .cons (isMark_of_space blank) address.isItem
      (.cons (isMark_of_comma separator) address'.isItem .nil)
  | entry _ blank symbol => exact .cons (isMark_of_space blank) symbol.isItem .nil
  | wordCount _ blank kind =>
    refine .cons (isMark_of_space blank) ?_ .nil
    rw [kind]
    rfl
  | constants _ blank constants =>
    exact separated_of_isConstantList constants (isMark_of_space blank)

theorem isFront_of_isHead {head operandTokens : List Token} {label : Option String} {token : Token}
    (h : IsHead head label) (hkind : token.kind = .mnemonic) (hrest : Separated operandTokens) :
    IsFront (head ++ token :: operandTokens) := by
  have hitem : token.kind.isItem = true := by
    rw [hkind]
    rfl
  cases h with
  | nothing => exact .item hitem hrest
  | blank blank => exact .separated (.cons (isMark_of_space blank) hitem hrest)
  | label symbol blank => exact .item symbol.isItem (.cons (isMark_of_space blank) hitem hrest)

theorem IsHead.relocated {label : Option String} (h : IsHead tokens label) (line : Nat) :
    IsHead (tokens.map (Token.relocated line)) label := by
  cases h with
  | nothing => exact .nothing
  | blank blank => exact .blank blank
  | label symbol blank => exact .label (symbol.relocated line) blank

theorem IsIndex.relocated {x : Option Register} (h : IsIndex tokens x) (line : Nat) :
    IsIndex (tokens.map (Token.relocated line)) x := by
  cases h with
  | absent => exact .absent
  | present separator register nonzero =>
    exact .present separator (register.relocated line) nonzero

theorem IsConstantList.relocated {words : List Operand} (h : IsConstantList tokens words)
    (line : Nat) : IsConstantList (tokens.map (Token.relocated line)) words := by
  induction h with
  | last data => exact .last (data.relocated line)
  | more data separator _ ih => exact .more (data.relocated line) separator ih

theorem IsOperandList.relocated {m : Mnemonic} {operands : Operands}
    (h : IsOperandList m tokens operands) (line : Nat) :
    IsOperandList m (tokens.map (Token.relocated line)) operands := by
  cases h with
  | none shape => exact .none shape
  | register shape blank register => exact .register shape blank (register.relocated line)
  | address shape blank address index =>
    exact .address shape blank (address.relocated line) (index.relocated line)
  | registerAddress shape blank register separator address index =>
    exact .registerAddress shape blank (register.relocated line) separator (address.relocated line)
      (index.relocated line)
  | registers shape blank register separator register' =>
    exact .registers shape blank (register.relocated line) separator (register'.relocated line)
  | buffer shape blank address separator address' =>
    exact .buffer shape blank (address.relocated line) separator (address'.relocated line)
  | noEntry shape => exact .noEntry shape
  | entry shape blank symbol => exact .entry shape blank (symbol.relocated line)
  | wordCount shape blank kind constant => exact .wordCount shape blank kind constant
  | constants shape blank constants => exact .constants shape blank (constants.relocated line)

theorem IsTrailer.kind_ne_mnemonic (h : IsTrailer tokens) : ∀ t ∈ tokens, t.kind ≠ .mnemonic := by
  cases h with
  | mk blank_kind comment_kind stop_kind =>
    intro t ht
    rcases List.mem_append.1 ht with ht | ht
    · rcases List.mem_append.1 ht with ht | ht
      · simp [blank_kind t (Option.mem_toList.1 ht)]
      · simp [comment_kind t (Option.mem_toList.1 ht)]
    · simp [List.mem_singleton.1 ht, stop_kind]

/-- An instruction that follows a blank does not stand in a trailer. -/
theorem FollowLabel.of_relocated {operandTokens trailer trailer' : List Token} {line : Nat}
    (h : FollowLabel (operandTokens.map (Token.relocated line) ++ trailer'))
    (htrailer : IsTrailer trailer') : FollowLabel (operandTokens ++ trailer) := by
  obtain ⟨space, mnemonic, rest, heq, hspace, hmnemonic⟩ := h
  have hnot := htrailer.kind_ne_mnemonic mnemonic
  cases operandTokens with
  | nil =>
    have htrailer' : trailer' = space :: mnemonic :: rest := heq
    exact absurd hmnemonic (hnot (by simp [htrailer']))
  | cons t operandTokens =>
    obtain ⟨hfirst, hrest⟩ := List.cons.inj heq
    cases operandTokens with
    | nil =>
      have htrailer' : trailer' = mnemonic :: rest := hrest
      exact absurd hmnemonic (hnot (by simp [htrailer']))
    | cons u operandTokens =>
      have hsecond := (List.cons.inj hrest).1
      refine ⟨t, u, operandTokens ++ trailer, rfl, ?_, ?_⟩
      · exact (congrArg Token.kind hfirst).trans hspace
      · exact (congrArg Token.kind hsecond).trans hmnemonic

/-- A line that writes a statement is a front and a trailer. The same front writes the
statement on every line and with every trailer. -/
theorem exists_front_of_isLine {s : Statement} (h : IsLine tokens s) :
    ∃ front trailer, tokens = front ++ trailer ∧ IsFront front ∧ IsTrailer trailer ∧
      ∀ line trailer', IsTrailer trailer' →
        IsLine (front.map (Token.relocated line) ++ trailer') s := by
  cases h with
  | @mk head operandTokens trailer label token m operands isHead kind row isOperandList isTrailer
      bare =>
    refine ⟨head ++ token :: operandTokens, trailer, by simp,
      isFront_of_isHead isHead kind (separated_of_isOperandList isOperandList), isTrailer, ?_⟩
    intro line trailer' htrailer'
    have hline : IsLine (head.map (Token.relocated line) ++ token.relocated line ::
        (operandTokens.map (Token.relocated line) ++ trailer')) ⟨label, m, operands⟩ :=
      .mk (isHead.relocated line) kind row (isOperandList.relocated line) htrailer'
        fun hhead hfollow => bare (List.map_eq_nil_iff.1 hhead) (hfollow.of_relocated htrailer')
    simpa using hline

end Statement

/-- The record without its place in the source text. -/
def Record.unplaced (r : Record) : Record := { r with line := 0, tokens := [] }

theorem Statement.map_unplaced_recordsOf (s : Statement) (line line' : Nat)
    (tokens tokens' : List Token) (bodies : List Body) :
    (s.recordsOf line tokens bodies).map Record.unplaced =
      (s.recordsOf line' tokens' bodies).map Record.unplaced := by
  cases bodies with
  | nil => rfl
  | cons body bodies => simp [recordsOf, Record.unplaced, Function.comp_def]

namespace Assembly

variable {gr8 : Bool} {number : Nat} {line : String}

/-- A silent line gives nothing. -/
theorem readLine_of_isSilent (gr8 : Bool) (number : Nat) (h : Text.IsSilent line.toList) :
    readLine gr8 number line = .ok ⟨[], []⟩ := by
  obtain ⟨trailer, hscan, htrailer⟩ := Token.exists_scanFrom_of_isSilent gr8 number 0 h
  rw [readLine_eq, readNonblank, Token.scan_eq_ok_iff.2 hscan]
  simp only [Statement.read, Statement.atEnd_of_isTrailer htrailer, if_true]

/-- If a line is read without a remark, it can be scanned. -/
theorem exists_scanFrom_of_readLine {records : List Record}
    (h : readLine gr8 number line = .ok ⟨records, []⟩) :
    ∃ tokens, Token.scanFrom gr8 number 0 line.toList = .ok tokens ∧
      Statement.read number tokens = .ok ⟨records, []⟩ := by
  rw [readLine_eq, readNonblank] at h
  cases hscan : Token.scanFrom gr8 number 0 line.toList with
  | error column => simp [Token.scan, hscan] at h
  | ok tokens =>
    rw [Token.scan_eq_ok_iff.2 hscan] at h
    exact ⟨tokens, rfl, h⟩

/-- Only a silent line gives nothing. -/
theorem isSilent_of_readLine (h : readLine gr8 number line = .ok ⟨[], []⟩)
    (hsingle : '\n' ∉ line.toList) : Text.IsSilent line.toList := by
  obtain ⟨tokens, hscan, hread⟩ := exists_scanFrom_of_readLine h
  rcases Statement.read_cases (Token.spelled_of_scanFrom hscan) hread with
    ⟨hend, -⟩ | ⟨d, -, heq⟩ | ⟨-, s, rest, bodies, -, hwell, -, hbodies, heq⟩
  · have htrailer :=
      Statement.isTrailer_of_atEnd (Token.endLine_of_scanFrom hscan hsingle) hend
    exact Token.isSilent_of_scanFrom hscan htrailer hsingle
  · cases heq
  · injection heq with hrecords
    have hne := (Statement.areBodies_of_hasBodies hwell hbodies).nonempty
    exact absurd hrecords.symm (Statement.recordsOf_ne_nil hne number tokens)

/-- A line that is read without a remark is read in the same way if a silent text is added to
it, wherever it stands in the program. -/
theorem readLine_append {records : List Record} (h : readLine gr8 number line = .ok ⟨records, []⟩)
    (hsingle : '\n' ∉ line.toList) {ext : String} (hext : Text.IsSilent ext.toList)
    (number' : Nat) :
    ∃ records', readLine gr8 number' (line ++ ext) = .ok ⟨records', []⟩ ∧
      records'.map Record.unplaced = records.map Record.unplaced := by
  by_cases hrecords : records = []
  · subst hrecords
    refine ⟨[], readLine_of_isSilent gr8 number' ?_, rfl⟩
    rw [String.toList_append]
    exact (isSilent_of_readLine h hsingle).append hext
  · obtain ⟨tokens, hscan, hread⟩ := exists_scanFrom_of_readLine h
    obtain ⟨s, bodies, hline, hbodies, rfl⟩ :=
      Statement.exists_isLine_of_read (Token.spelled_of_scanFrom hscan)
        (Token.endLine_of_scanFrom hscan hsingle) hread hrecords
    obtain ⟨front, trailer, rfl, hfront, htrailer, hlines⟩ := Statement.exists_front_of_isLine hline
    obtain ⟨column, tail, htail, hsuffix, hresumes⟩ := Token.exists_resumes hfront hscan
    have hsilent : Text.IsSilent (tail ++ ext.toList) :=
      (Token.isSilent_of_scanFrom htail htrailer
        fun hmem => hsingle (hsuffix.subset hmem)).append hext
    obtain ⟨trailer', hscan', htrailer'⟩ :=
      Token.exists_scanFrom_of_isSilent gr8 number' column hsilent
    have hscanned : Token.scanFrom gr8 number' 0 (line ++ ext).toList =
        .ok (front.map (Token.relocated number') ++ trailer') := by
      rw [String.toList_append, hresumes _ hsilent.separates, hscan']
      rfl
    have hsingle' : '\n' ∉ (line ++ ext).toList := by
      simpa using ⟨hsingle, hext.single⟩
    have hline' := hlines number' trailer' htrailer'
    obtain ⟨hread', -⟩ := Statement.read_of_isLine (Token.spelled_of_scanFrom hscanned)
      (Token.endLine_of_scanFrom hscanned hsingle') number' hline' hbodies
    rw [readLine_eq, readNonblank, Token.scan_eq_ok_iff.2 hscanned]
    exact ⟨_, hread', Statement.map_unplaced_recordsOf s _ _ _ _ bodies⟩

end Assembly

end Comet
