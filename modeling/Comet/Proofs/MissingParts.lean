import Comet.Proofs.SourceSpans
import Comet.Proofs.Trailers

/-!
# Missing parts and wrong ones

Reading a line stops at its first problem. If only blanks and a comment are left there, a part of
the statement is missing. If something else is left, something was expected in its place. The two
are told apart by looking at one or two tokens, and that is enough because a blank or a comma is
never followed by a blank.

If reading stops at a problem, the problem suits the rest of the line (`suits_of_arises`). Only the
blank behind a label is asked for without a look at the rest of the line, so a line that consists
of a label is the one exception.
-/

namespace Comet

namespace Diagnostic

/-- The codes of the problems that report a missing part. -/
def missingCodes : List Nat := [17, 18, 21, 22, 23, 24, 25, 26, 27, 28, 29]

theorem Kind.code_mem_missingCodes {kind : Kind} :
    kind.code ∈ missingCodes ↔ ∃ part, kind = .missing part := by
  cases kind with
  | missing part => cases part <;> simp [code, Part.code, missingCodes]
  | _ => simp [code, missingCodes]

/-- Whether the problem may be reported at a place, by whether the line ends there. -/
def Kind.fits : Kind → Bool → Bool
  | missing _, ended => ended
  | expected _, ended => !ended
  | _, _ => true

/-- The problem may be reported where it is, by what is left of the line there. -/
def Suits (d : Diagnostic) (source : String) : Prop :=
  ∃ before rest, source.toList = before ++ rest ∧ Text.byteLength before = d.span.start ∧
    d.kind.fits (decide (Text.IsSilent rest)) = true

/-- What is wrong with the text of a token is not that it is missing. -/
theorem Kind.Concerns.fits {text : String} {kind : Kind} (h : kind.Concerns text) :
    kind.fits false = true := by
  cases h <;> rfl

end Diagnostic

namespace Token

variable {gr8 : Bool} {line column : Nat} {cs : List Char} {tokens : List Token}

/-- A text has a first token, which stands where the text begins. -/
theorem exists_cons_of_scanFrom (h : scanFrom gr8 line column cs = .ok tokens) :
    ∃ token rest, tokens = token :: rest ∧ token.span.start = column := by
  rw [scanFrom] at h
  split at h
  · cases h
    exact ⟨_, [], rfl, rfl⟩
  split at h
  · cases h
  · rename_i l _
    obtain ⟨rest, -, rfl⟩ := Traversal.bind_pure_eq_ok.1 h
    exact ⟨_, rest, rfl, rfl⟩

/-- A line is at its end if it is silent from there on. -/
theorem atEnd_of_scanFrom (h : scanFrom gr8 line column cs = .ok tokens) (hsingle : '\n' ∉ cs) :
    Statement.atEnd tokens = decide (Text.IsSilent cs) := by
  rw [Bool.eq_iff_iff, decide_eq_true_iff]
  constructor
  · intro hend
    exact isSilent_of_scanFrom h (Statement.isTrailer_of_atEnd (endLine_of_scanFrom h hsingle) hend)
      hsingle
  · intro hsilent
    obtain ⟨trailer, hscan, htrailer⟩ := exists_scanFrom_of_isSilent gr8 line column hsilent
    rw [h] at hscan
    cases hscan
    exact Statement.atEnd_of_isTrailer htrailer

/-- Blanks and commas take all blanks behind them. -/
theorem isBlank_rest_of_isMark {l : Lexeme} (h : Lexeme.first? gr8 cs = some l)
    (hkind : l.kind.isMark = true) : ∀ c ∈ l.rest.head?, Text.isBlank c = false := by
  obtain ⟨c, rest, -, hl, -⟩ := exists_run_of_isMark h hkind
  rw [hl]
  exact Text.head?_dropWhile Text.isBlank rest

theorem kind_ne_space_of_scanFrom {token : Token} {rest : List Token}
    (h : scanFrom gr8 line column cs = .ok (token :: rest))
    (hcs : ∀ c ∈ cs.head?, Text.isBlank c = false) : token.kind ≠ .space := by
  intro hkind
  obtain ⟨l, hl, rfl, -⟩ := exists_first?_of_scanFrom h (by simp [hkind])
  have hspelled := Lexeme.spelled_of_first? hl
  rw [← (Lexeme.splits_of_first? hl).1] at hcs
  change l.kind = .space at hkind
  rw [hkind] at hspelled
  generalize l.text = text at hspelled hcs
  cases hspelled with
  | @space c blanks first =>
    have hblank := hcs c rfl
    rw [first] at hblank
    cases hblank
  | name _ hname => exact Kind.ne_ofName rfl gr8 _ hname

/-- What is left of the tokens was scanned from what is left of the text. -/
theorem exists_scanFrom_of_isSuffix (h : scanFrom gr8 line column cs = .ok tokens)
    {rest : List Token} (hrest : rest <:+ tokens) (hne : rest ≠ []) :
    ∃ before after, cs = before ++ after ∧
      scanFrom gr8 line (column + Text.byteLength before) after = .ok rest := by
  fun_induction scanFrom gr8 line column cs generalizing tokens with
  | case1 column cs hempty =>
    cases h
    rcases List.suffix_cons_iff.1 hrest with rfl | hnil
    · refine ⟨[], cs, rfl, ?_⟩
      rw [scanFrom, hempty]
      rfl
    · exact absurd (List.suffix_nil.1 hnil) hne
  | case2 => cases h
  | case3 column cs hempty l hl ih =>
    obtain ⟨more, hmore, rfl⟩ := Traversal.bind_pure_eq_ok.1 h
    rcases List.suffix_cons_iff.1 hrest with rfl | hrest
    · refine ⟨[], cs, rfl, ?_⟩
      rw [Text.byteLength_nil, Nat.add_zero, scanFrom_of_first? hl, hmore]
      rfl
    · obtain ⟨before, after, hafter, hscan⟩ := ih hmore hrest
      refine ⟨l.text ++ before, after, ?_, ?_⟩
      · rw [List.append_assoc, ← hafter, (Lexeme.splits_of_first? hl).1]
      · rw [Text.byteLength_append, ← Nat.add_assoc]
        exact hscan

end Token

namespace Statement

variable {gr8 : Bool} {number : Nat} {source : String} {tokens : List Token}

/-! ## What is left of a line -/

section Scanned

variable (hsingle : '\n' ∉ source.toList) (hscan : Token.scan gr8 number source = .ok tokens)
  {rest : List Token}

include hsingle hscan

/-- The next token stands before the rest of the line, and that is silent if the line ends. -/
theorem exists_rest_of_isSuffix (hrest : rest <:+ tokens) :
    ∃ before after, source.toList = before ++ after ∧
      Text.byteLength before = ((Line.ofTokens number tokens).next rest).span.start ∧
      atEnd rest = decide (Text.IsSilent after) := by
  cases rest with
  | nil =>
    refine ⟨source.toList, [], (List.append_nil _).symm, (Line.stop_ofTokens hscan).symm, ?_⟩
    decide
  | cons token rest =>
    obtain ⟨before, after, hsource, hafter⟩ :=
      Token.exists_scanFrom_of_isSuffix (Token.scan_eq_ok_iff.1 hscan) hrest (List.cons_ne_nil _ _)
    obtain ⟨_, _, ⟨⟩, hstart⟩ := Token.exists_cons_of_scanFrom hafter
    have hsingle' : '\n' ∉ after := fun hmem =>
      hsingle (hsource ▸ List.mem_append_right before hmem)
    refine ⟨before, after, hsource, ?_, Token.atEnd_of_scanFrom hafter hsingle'⟩
    rw [Line.next_cons, hstart, Nat.zero_add]

omit hsingle in
/-- Behind a separator one token shows whether the line ends. -/
theorem atEnd_of_goesOn (h : (Line.ofTokens number tokens).GoesOn tokens rest) :
    atEnd rest = false := by
  cases h with
  | begun _ unfinished => exact unfinished
  | place place hends =>
    obtain ⟨mark, hmark, hsuffix⟩ := place
    cases rest with
    | nil => cases hends
    | cons token rest =>
      obtain ⟨_, _, -, hscan⟩ := Token.exists_scanFrom_of_isSuffix (Token.scan_eq_ok_iff.1 hscan)
        hsuffix (List.cons_ne_nil _ _)
      obtain ⟨l, hl, rfl, hrest⟩ :=
        Token.exists_first?_of_scanFrom hscan (Token.Kind.ne_endOfLine (.inl hmark))
      have hne : token.kind ≠ .space :=
        Token.kind_ne_space_of_scanFrom hrest (Token.isBlank_rest_of_isMark hl hmark)
      exact atEnd_cons_of_ne hne hends rest

theorem suits_of_isSuffix (hrest : rest <:+ tokens) {d : Diagnostic}
    (hstart : d.span.start = ((Line.ofTokens number tokens).next rest).span.start)
    (hfits : d.kind.fits (atEnd rest) = true) : d.Suits source := by
  obtain ⟨before, after, hsource, hbefore, hend⟩ := exists_rest_of_isSuffix hsingle hscan hrest
  rw [hend] at hfits
  exact ⟨before, after, hsource, hbefore.trans hstart.symm, hfits⟩

/-- The problems of a line suit what is left of it, unless the line ends behind its label. -/
theorem suits_of_arises {d : Diagnostic} (h : (Line.ofTokens number tokens).Arises tokens d)
    (hlabel : ((Line.ofTokens number tokens).next tokens).kind = .label →
      ((Line.ofTokens number tokens).next tokens.tail).kind.endsLine = false) :
    d.Suits source := by
  cases h with
  | missing left ended =>
    refine suits_of_isSuffix hsingle hscan left rfl ?_
    rw [ended]
    rfl
  | unexpected goesOn =>
    refine suits_of_isSuffix hsingle hscan goesOn.isSuffix rfl ?_
    rw [atEnd_of_goesOn hscan goesOn]
    rfl
  | bareLabel label ended =>
    rw [hlabel label] at ended
    cases ended
  | ofToken left unfinished blames =>
    cases blames with
    | mk concerns =>
      refine suits_of_isSuffix hsingle hscan left rfl ?_
      rw [unfinished]
      exact concerns.fits
  | zeroIndex left => exact suits_of_isSuffix hsingle hscan left rfl rfl

theorem suits_of_mem_remark (hrest : rest <:+ tokens) {d : Diagnostic}
    (hd : d ∈ (Line.ofTokens number tokens).remark rest) : d.Suits source := by
  rw [Line.remark] at hd
  split at hd
  · cases hd
  · rw [List.mem_singleton.1 hd]
    exact suits_of_isSuffix hsingle hscan hrest rfl rfl

end Scanned

/-! ## Bare labels -/

/-- The line is a label, perhaps with a comment directly behind it. -/
def IsBareLabel (gr8 : Bool) (source : String) : Prop :=
  ∃ name comment, source.toList = name ++ comment ∧ Token.IsName name ∧
    Token.Kind.ofName gr8 (String.ofList name) = .label ∧ ∀ c ∈ comment.head?, c = ';'

/-- If a line ends behind its label, there is nothing else on it. -/
theorem isBareLabel_of_scan (hsingle : '\n' ∉ source.toList)
    (h : Token.scan gr8 number source = .ok tokens) (line : Line)
    (hlabel : (line.next tokens).kind = .label)
    (hends : (line.next tokens.tail).kind.endsLine = true) : IsBareLabel gr8 source := by
  have hscan := Token.scan_eq_ok_iff.1 h
  obtain ⟨token, tokens, rfl, -⟩ := Token.exists_cons_of_scanFrom hscan
  change token.kind = .label at hlabel
  obtain ⟨l, hl, rfl, hrest⟩ := Token.exists_first?_of_scanFrom hscan (by simp [hlabel])
  change l.kind = .label at hlabel
  have hsplits := (Token.Lexeme.splits_of_first? hl).1
  have hspelled := Token.Lexeme.spelled_of_first? hl
  rw [hlabel] at hspelled
  refine ⟨l.text, l.rest, hsplits.symm, ?_⟩
  generalize l.text = name at hspelled
  cases hspelled with
  | name hname hkind =>
    refine ⟨hname, hkind.symm, ?_⟩
    have hne : (line.next tokens).kind ≠ .space := by
      intro hspace
      rw [List.tail_cons, hspace] at hends
      cases hends
    have hend : atEnd tokens = true := (line.atEnd_eq_endsLine hne).trans hends
    have hsingle' : '\n' ∉ l.rest := fun hmem =>
      hsingle (hsplits ▸ List.mem_append_right l.text hmem)
    obtain @⟨blank, comment, stop, hblank, hcomment, hstop⟩ :=
      isTrailer_of_atEnd (Token.endLine_of_scanFrom hrest hsingle') hend
    cases blank with
    | none => exact Token.head?_of_scanFrom hrest hcomment hstop
    | some blank => exact absurd (hblank blank rfl) hne

/-- The blank behind a label is expected even where the line ends. -/
theorem Line.statement_of_label (line : Line) {token next : Token} (rest : List Token)
    (hlabel : token.kind = .label) (hends : next.kind.endsLine = true) :
    line.statement (token :: next :: rest) =
      line.problemFrom next.span.start (.expected .space) := by
  have hexpect : line.expect .space (next :: rest) =
      line.problemFrom next.span.start (.expected .space) := by
    have haccepts : ¬ Slot.accepts .space next.kind = true := by
      intro haccepts
      rw [Slot.endsLine_of_accepts haccepts] at hends
      cases hends
    have hnext : line.next (next :: rest) = next := rfl
    rw [expect, hnext, if_neg haccepts, Slot.report, if_pos hends]
    rfl
  have hnext : line.next (token :: next :: rest) = token := rfl
  rw [statement, label, hnext, hlabel]
  dsimp only
  rw [labelled, List.tail_cons, hexpect]
  rfl

theorem read_of_label (number : Nat) {token next : Token} (rest : List Token)
    (hlabel : token.kind = .label) (hends : next.kind.endsLine = true) :
    read number (token :: next :: rest) =
      .ok ⟨[], [(Line.ofTokens number (token :: next :: rest)).diagnosticFrom next.span.start
        (.expected .space)]⟩ := by
  have hend : atEnd (token :: next :: rest) = false :=
    atEnd_cons_of_ne (by simp [hlabel]) (by simp [hlabel, Token.Kind.endsLine]) _
  rw [read, hend, Line.statement_of_label _ rest hlabel hends]
  rfl

/-- A bare label is rejected where the label ends. -/
theorem read_of_isBareLabel (hsingle : '\n' ∉ source.toList)
    (h : Token.scan gr8 number source = .ok tokens) (hbare : IsBareLabel gr8 source) :
    ∃ d before rest, read number tokens = .ok ⟨[], [d]⟩ ∧ d.kind = .expected .space ∧
      source.toList = before ++ rest ∧ Text.byteLength before = d.span.start ∧
      Text.IsSilent rest := by
  obtain ⟨name, comment, hsource, hname, hkind, hcomment⟩ := hbare
  have hrest : Text.IsSilent comment := by
    refine ⟨fun hmem => hsingle ?_, [], comment, rfl, by simp, hcomment⟩
    rw [hsource]
    exact List.mem_append_right name hmem
  have hfirst : Token.Lexeme.first? gr8 source.toList = some ⟨.label, name, comment⟩ := by
    rw [hsource, ← hkind]
    exact Token.standsAlone_name hname comment hrest.separates
  obtain ⟨remark, stop, hscan, hremark, hstop⟩ := Token.exists_scanFrom_comment gr8 number
    (0 + Text.byteLength name) hrest.single hcomment
  have htokens := Token.scan_eq_ok_iff.1 h
  rw [Token.scanFrom_of_first? hfirst, hscan] at htokens
  cases htokens
  obtain ⟨next, trailer, htrailer, hstart⟩ := Token.exists_cons_of_scanFrom hscan
  rw [htrailer]
  have hends : next.kind.endsLine = true := by
    cases remark with
    | none =>
      obtain ⟨rfl, -⟩ := List.cons.inj htrailer
      rw [hstop]
      rfl
    | some token =>
      obtain ⟨rfl, -⟩ := List.cons.inj htrailer
      rw [hremark token rfl]
      rfl
  refine ⟨_, name, comment, read_of_label number trailer rfl hends, rfl, hsource, ?_, hrest⟩
  exact (hstart.trans (Nat.zero_add _)).symm

/-- What is reported about any other line suits the rest of it. -/
theorem suits_of_read (hsingle : '\n' ∉ source.toList)
    (hscan : Token.scan gr8 number source = .ok tokens) (hbare : ¬ IsBareLabel gr8 source)
    {reading : Reading} (h : read number tokens = .ok reading) :
    ∀ d ∈ reading.diagnostics, d.Suits source := by
  intro d hd
  rcases read_cases (Token.spelled_of_scan hscan) h with
    ⟨-, rfl⟩ | ⟨d', harises, rfl⟩ | ⟨-, s, rest, bodies, -, -, hrest, -, rfl⟩
  · cases hd
  · rw [List.mem_singleton.1 hd]
    refine suits_of_arises hsingle hscan harises fun hlabel => Bool.eq_false_iff.2 fun hends => ?_
    exact hbare (isBareLabel_of_scan hsingle hscan _ hlabel hends)
  · exact suits_of_mem_remark hsingle hscan hrest hd

/-- Reading tells missing parts from wrong ones: a missing part is reported where only blanks and a
comment are left of the line, and something is expected where something else is left. The blank
behind a label that nothing follows is the one exception. -/
theorem exists_discerning_read (hsingle : '\n' ∉ source.toList)
    (h : Token.scan gr8 number source = .ok tokens) :
    ∃ reading, read number tokens = .ok reading ∧
      (IsBareLabel gr8 source → ∃ d ∈ reading.diagnostics, d.kind = .expected .space) ∧
      ∀ d ∈ reading.diagnostics, ∃ before rest, source.toList = before ++ rest ∧
        Text.byteLength before = d.span.start ∧
        (d.code ∈ Diagnostic.missingCodes → Text.IsSilent rest) ∧
        ∀ category, d.kind = .expected category →
          (Text.IsSilent rest ↔ category = .space ∧ IsBareLabel gr8 source) := by
  by_cases hbare : IsBareLabel gr8 source
  · obtain ⟨d, before, rest, hread, hkind, hsource, hbefore, hsilent⟩ :=
      read_of_isBareLabel hsingle h hbare
    refine ⟨_, hread, fun _ => ⟨d, .head _, hkind⟩, ?_⟩
    intro d' hd'
    obtain rfl := List.mem_singleton.1 hd'
    refine ⟨before, rest, hsource, hbefore, fun _ => hsilent, ?_⟩
    intro category hcategory
    rw [hkind] at hcategory
    cases hcategory
    exact iff_of_true hsilent ⟨rfl, hbare⟩
  · obtain ⟨reading, hread, -⟩ := exists_read number (Token.spelled_of_scan h)
    refine ⟨reading, hread, fun hb => absurd hb hbare, fun d hd => ?_⟩
    obtain ⟨before, rest, hsource, hbefore, hfits⟩ := suits_of_read hsingle h hbare hread d hd
    refine ⟨before, rest, hsource, hbefore, ?_, ?_⟩
    · intro hcode
      obtain ⟨part, hpart⟩ := Diagnostic.Kind.code_mem_missingCodes.1 hcode
      rw [hpart] at hfits
      exact of_decide_eq_true hfits
    · intro category hcategory
      rw [hcategory] at hfits
      have hsilent : ¬ Text.IsSilent rest := by simpa [Diagnostic.Kind.fits] using hfits
      exact iff_of_false hsilent fun hb => hbare hb.2

/-- The comma takes the blank behind it, so the line ends where the second operand should be. -/
def unfinishedLoad : String := " LD GR1, ; later"

theorem discerning_read_unfinishedLoad :
    ∃ tokens reading, Token.scan false 0 unfinishedLoad = .ok tokens ∧
      read 0 tokens = .ok reading ∧
      reading.diagnostics = [⟨⟨0, 9, 16⟩, .missing .secondRegister⟩] ∧
      ∀ d ∈ reading.diagnostics, ∃ before rest, unfinishedLoad.toList = before ++ rest ∧
        Text.byteLength before = d.span.start ∧
        (d.code ∈ Diagnostic.missingCodes → Text.IsSilent rest) ∧
        ∀ category, d.kind = .expected category →
          (Text.IsSilent rest ↔ category = .space ∧ IsBareLabel false unfinishedLoad) := by
  have hread : (Token.scan false 0 unfinishedLoad).toOption.bind (fun tokens =>
      (read 0 tokens).toOption.map (·.diagnostics)) =
      some [⟨⟨0, 9, 16⟩, .missing .secondRegister⟩] := by
    decide +kernel
  obtain ⟨tokens, hscan, hread⟩ := Option.bind_eq_some_iff.1 hread
  rw [Traversal.toOption_eq_some] at hscan
  obtain ⟨reading, hreading, -, hplaces⟩ := exists_discerning_read (by decide +kernel) hscan
  have hdiagnostics : reading.diagnostics = [⟨⟨0, 9, 16⟩, .missing .secondRegister⟩] := by
    simpa [hreading, Except.toOption] using hread
  exact ⟨tokens, reading, hscan, hreading, hdiagnostics, hplaces⟩

end Statement

end Comet
