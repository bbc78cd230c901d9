import Comet.Proofs.EntryPoint

/-!
# Naming the stack pointer

If the stack pointer may be named, its name is a register wherever it was a label before.
Nothing else changes in the tokens of a line. No part of a line that is read without errors
can have been such a label, because the name is reserved either way, so the line is read as
before. What is left of a line after its operands may differ, but only in the kinds of
tokens that nothing looks at.

It follows that a program that can be assembled without naming the stack pointer can be
assembled if naming it is allowed, to the same image (`compile_namingStackPointer`).
-/

namespace Comet

namespace Token

/-- The kind of a token with the given text if the stack pointer may be named. -/
def Kind.promoted (text : String) (kind : Kind) : Kind :=
  if kind = .label ∧ text = Register.gr8.name then .register else kind

/-- The token as it is scanned if the stack pointer may be named. -/
def promoted (token : Token) : Token :=
  { token with kind := token.kind.promoted token.text }

theorem Kind.promoted_of_ne_label {kind : Kind} (h : kind ≠ .label) (text : String) :
    kind.promoted text = kind :=
  if_neg fun hlabel => h hlabel.1

theorem Kind.promoted_cases (text : String) (kind : Kind) :
    kind.promoted text = kind ∨ kind = .label ∧ kind.promoted text = .register := by
  rw [promoted]
  split
  · rename_i hlabel
    exact .inr ⟨hlabel.1, rfl⟩
  · exact .inl rfl

/-- Kinds other than labels and registers are told apart as before. -/
theorem kind_promoted_eq_iff {token : Token} {kind : Kind} (hlabel : kind ≠ .label)
    (hregister : kind ≠ .register) : token.promoted.kind = kind ↔ token.kind = kind := by
  rcases token.kind.promoted_cases token.text with h | ⟨hkind, hpromoted⟩
  · rw [promoted, h]
  · rw [promoted, hpromoted, hkind]
    exact ⟨fun h => absurd h.symm hregister, fun h => absurd h.symm hlabel⟩

@[simp] theorem endsLine_promoted (token : Token) :
    token.promoted.kind.endsLine = token.kind.endsLine := by
  rcases token.kind.promoted_cases token.text with h | ⟨hkind, hpromoted⟩
  · rw [promoted, h]
  · rw [promoted, hpromoted, hkind]
    rfl

/-! ## Scanning -/

theorem Kind.ofName_true (name : String) :
    Kind.ofName true name = (Kind.ofName false name).promoted name := by
  rw [Kind.ofName, Kind.ofName]
  split
  · rfl
  · cases hname : Register.ofName? name with
    | none =>
      have hne : name ≠ Register.gr8.name := by
        rintro rfl
        rw [Register.ofName?_name] at hname
        cases hname
      simp [promoted, hne]
    | some r =>
      obtain rfl := Register.ofName?_eq_some_iff.1 hname
      cases r <;> decide

namespace Lexeme

/-- The first token of a text if the stack pointer may be named. -/
def promoted (l : Lexeme) : Lexeme :=
  { l with kind := l.kind.promoted (String.ofList l.text) }

theorem promoted_of_constant? {kind : ConstantForm → Kind} (hkind : ∀ form, kind form ≠ .label)
    {cs : List Char} {l : Lexeme} (h : constant? kind cs = some l) (text : String) :
    l.kind.promoted text = l.kind := by
  obtain ⟨form, hform, -⟩ := isConstant_of_constant? h
  exact Kind.promoted_of_ne_label (hform ▸ hkind form) text

/-- Naming the stack pointer does not change where a token ends. -/
theorem first?_true (cs : List Char) : first? true cs = (first? false cs).map promoted := by
  cases cs with
  | nil => rfl
  | cons c cs =>
    rw [first?, first?]
    split
    · rw [Kind.ofName_true]
      rfl
    split
    · rfl
    split
    · rfl
    split
    · rfl
    split
    · cases hconstant : constant? .literal cs with
      | none => rfl
      | some l =>
        simp [promoted, promoted_of_constant? (by simp) hconstant]
    · cases hconstant : constant? .constant (c :: cs) with
      | none => rfl
      | some l =>
        simp [promoted, promoted_of_constant? (by simp) hconstant]

end Lexeme

theorem scanFrom_true (line column : Nat) (cs : List Char) :
    scanFrom true line column cs = (scanFrom false line column cs).map (List.map promoted) := by
  fun_induction scanFrom false line column cs with
  | case1 column cs hempty =>
    rw [scanFrom, if_pos hempty]
    rfl
  | case2 column cs hempty hfirst =>
    have hfirst' : Lexeme.first? true cs = none := by rw [Lexeme.first?_true, hfirst]; rfl
    rw [scanFrom, if_neg hempty]
    split
    · rfl
    · rename_i l hsome
      rw [hfirst'] at hsome
      cases hsome
  | case3 column cs hempty l hfirst ih =>
    have hfirst' : Lexeme.first? true cs = some l.promoted := by
      rw [Lexeme.first?_true, hfirst]
      rfl
    rw [scanFrom_of_first? hfirst', Lexeme.promoted, ih]
    have htoken : ofText (l.kind.promoted (String.ofList l.text)) line column l.text =
        (ofText l.kind line column l.text).promoted := rfl
    cases scanFrom false line (column + Text.byteLength l.text) l.rest with
    | error e => rfl
    | ok tokens =>
      rw [htoken]
      rfl

/-- The tokens of a line are the same, but for the name of the stack pointer. -/
theorem scan_true (line : Nat) (source : String) :
    scan true line source = (scan false line source).map (List.map promoted) := by
  rw [scan, scan, scanFrom_true]
  cases scanFrom false line 0 source.toList <;> rfl

end Token

namespace Statement

open Token (promoted)

/-! ## Reading a line -/

/-- No part of a statement is the name of the stack pointer as a label, which is reserved. -/
theorem promoted_of_isPart {token : Token} (h : token.IsPart) : promoted token = token := by
  have hkind (hne : token.kind ≠ .label) : promoted token = token := by
    rw [promoted, Token.Kind.promoted_of_ne_label hne]
  cases h with
  | space kind | comma kind | constant kind | literal kind => exact hkind (by simp [kind])
  | register register => exact hkind (by simp [register.kind])
  | symbol symbol =>
    rw [promoted, Token.Kind.promoted, if_neg fun h => symbol.unreserved .gr8 h.2]

theorem map_promoted_of_isPart {tokens : List Token} (h : ∀ t ∈ tokens, t.IsPart) :
    tokens.map promoted = tokens :=
  (List.map_congr_left (g := id) fun t ht => promoted_of_isPart (h t ht)).trans (List.map_id tokens)

variable {tokens rest : List Token}

@[simp] theorem atEnd_map_promoted : atEnd (tokens.map promoted) = atEnd tokens := by
  have hspace (token : Token) : (token.promoted.kind == .space) = (token.kind == .space) := by
    rw [Bool.eq_iff_iff, beq_iff_eq, beq_iff_eq]
    exact Token.kind_promoted_eq_iff (by simp) (by simp)
  match tokens with
  | [] => rfl
  | [token] => simp [atEnd, hspace]
  | token :: next :: _ => simp [atEnd, hspace]

theorem followLabel_map_promoted : FollowLabel (tokens.map promoted) ↔ FollowLabel tokens := by
  match tokens with
  | [] => simp [FollowLabel]
  | [token] => simp [FollowLabel]
  | space :: mnemonic :: rest =>
    simp [FollowLabel, Token.kind_promoted_eq_iff]

theorem stopBefore_map_promoted {operands : Operands} (h : operands.StopBefore rest) :
    operands.StopBefore (rest.map promoted) := by
  match operands, h with
  | .address _ .none, h | .registerAddress _ _ .none, h | .entry .none, h =>
    exact atEnd_map_promoted.trans h
  | .constants words, h =>
    intro t ht hcomma
    rw [List.head?_map] at ht
    obtain ⟨first, hfirst, rfl⟩ := Option.map_eq_some_iff.1 ht
    exact h first hfirst ((Token.kind_promoted_eq_iff (by simp) (by simp)).1 hcomma)
  | .none, _ | .register _, _ | .address _ (some _), _ | .registerAddress _ _ (some _), _
  | .registers _ _, _ | .buffer _ _, _ | .entry (some _), _ | .wordCount _, _ => trivial

/-- A statement that can be read without naming the stack pointer is read as before. -/
theorem Line.statement_map_promoted (line : Line) {s : Statement}
    (hspelled : AllSpelled false tokens) (hspelled' : AllSpelled true (tokens.map promoted))
    (h : line.statement tokens = .ok (s, rest)) :
    line.statement (tokens.map promoted) = .ok (s, rest.map promoted) := by
  obtain ⟨head, token, operandTokens, rfl, hhead, hkind, hrow, hoperands, hstop, hbare⟩ :=
    line.exists_parts hspelled h
  have htoken : promoted token = token := by
    rw [promoted, Token.Kind.promoted_of_ne_label (by simp [hkind])]
  have htokens : (head ++ token :: (operandTokens ++ rest)).map promoted =
      head ++ token :: (operandTokens ++ rest.map promoted) := by
    rw [List.map_append, List.map_cons, List.map_append, htoken,
      map_promoted_of_isPart (isPart_of_isHead hhead),
      map_promoted_of_isPart (isPart_of_isOperandList hoperands)]
  have hbare' : head = [] → ¬ FollowLabel (operandTokens ++ rest.map promoted) := by
    intro hnil
    rw [← map_promoted_of_isPart (isPart_of_isOperandList hoperands), ← List.map_append,
      followLabel_map_promoted]
    exact hbare hnil
  rw [htokens] at hspelled' ⊢
  exact line.statement_of_parts hspelled' (stopBefore_map_promoted hstop) hhead hkind hrow hoperands
    hbare'

end Statement

/-- The record with the tokens of a line on which the stack pointer may be named. -/
def Record.promoted (r : Record) : Record :=
  { r with tokens := r.tokens.map Token.promoted }

/-- What reading a line gives if the stack pointer may be named. -/
def Statement.Reading.promoted (reading : Statement.Reading) : Statement.Reading :=
  { reading with records := reading.records.map Record.promoted }

namespace Statement

theorem recordsOf_map_promoted (s : Statement) (line : Nat) (tokens : List Token)
    (bodies : List Body) :
    s.recordsOf line (tokens.map Token.promoted) bodies =
      (s.recordsOf line tokens bodies).map Record.promoted := by
  cases bodies with
  | nil => rfl
  | cons body bodies =>
    simp [recordsOf, Record.promoted]

theorem ofTokens_map_promoted (number : Nat) (tokens : List Token) :
    Line.ofTokens number (tokens.map Token.promoted) = Line.ofTokens number tokens := by
  rw [Line.ofTokens, Line.ofTokens, List.getLast?_map, Option.map_map]
  rfl

theorem remark_map_promoted (line : Line) (tokens : List Token) :
    line.remark (tokens.map Token.promoted) = line.remark tokens := by
  rw [Line.remark, Line.remark, atEnd_map_promoted]
  cases tokens <;> rfl

/-- A line that is read without errors gives the same records and remarks. -/
theorem read_map_promoted {number : Nat} {tokens : List Token} {reading : Reading}
    (hspelled : AllSpelled false tokens)
    (hspelled' : AllSpelled true (tokens.map Token.promoted))
    (h : read number tokens = .ok reading)
    (herrors : Diagnostic.hasErrors reading.diagnostics = false) :
    read number (tokens.map Token.promoted) = .ok reading.promoted := by
  rw [read, atEnd_map_promoted, ofTokens_map_promoted]
  rcases read_cases hspelled h with ⟨hend, rfl⟩ | ⟨d, hd, rfl⟩ |
    ⟨hend, s, rest, bodies, hs, hwf, -, hbodies, rfl⟩
  · rw [if_pos hend]
    rfl
  · simp [Diagnostic.hasErrors, hd.isError] at herrors
  · rw [if_neg (by simp [hend]), Line.statement_map_promoted _ hspelled hspelled' hs]
    dsimp only
    rw [records_eq_recordsOf hwf hbodies, recordsOf_map_promoted, remark_map_promoted]
    rfl

end Statement

namespace Assembly

open Statement (Reading)

theorem readLine_true {number : Nat} {line : String} {reading : Reading}
    (h : readLine false number line = .ok reading)
    (herrors : Diagnostic.hasErrors reading.diagnostics = false) :
    readLine true number line = .ok reading.promoted := by
  rw [readLine_eq, readNonblank] at h ⊢
  have hscan' := Token.scan_true number line
  cases hscan : Token.scan false number line with
  | error d =>
    rw [hscan] at h
    cases h
    obtain ⟨column, -, rfl⟩ := Token.scan_eq_error_iff.1 hscan
    cases herrors
  | ok tokens =>
    rw [hscan] at h hscan'
    change Token.scan true number line = .ok (tokens.map Token.promoted) at hscan'
    rw [hscan']
    exact Statement.read_map_promoted (Token.spelled_of_scan hscan) (Token.spelled_of_scan hscan') h
      herrors

/-- A source text that is read without errors gives the same records and remarks. -/
theorem readLines_true {lines : List String} {reading : Reading}
    (h : readLines false lines = .ok reading)
    (herrors : Diagnostic.hasErrors reading.diagnostics = false) :
    readLines true lines = .ok reading.promoted := by
  obtain ⟨readings, hreadings, rfl⟩ := Traversal.bind_pure_eq_ok.1 h
  rw [Diagnostic.hasErrors_flatMap_eq_false] at herrors
  have hlines : List.Forall₂ (fun p reading => readLine true p.2 p.1 = .ok reading) lines.zipIdx
      (readings.map Reading.promoted) := by
    rw [List.forall₂_map_right_iff]
    replace hreadings := Traversal.mapM_eq_ok_iff.1 hreadings
    generalize lines.zipIdx = numbered at hreadings
    clear h
    induction hreadings with
    | nil => exact .nil
    | cons hread _ ih =>
      obtain ⟨hfirst, hrest⟩ := List.forall_mem_cons.1 herrors
      exact .cons (readLine_true hread hfirst) (ih hrest)
  rw [readLines_of_forall₂ hlines]
  simp [Reading.promoted, List.flatMap_map, List.map_flatMap]

end Assembly

/-! ## Assembling the records -/

namespace Record

theorem labelLocation_promoted (r : Record) : r.promoted.labelLocation = r.labelLocation := by
  rw [labelLocation, labelLocation, labelSpan, labelSpan, promoted]
  cases r.tokens <;> rfl

@[simp] theorem check_promoted (r : Record) : r.promoted.check = r.check := by
  rw [check, check, labelLocation_promoted]
  rfl

end Record

section

variable (records : List Record)

theorem LiteralPool.ofRecords_promoted (n : Nat) :
    LiteralPool.ofRecords n (records.map Record.promoted) =
      { LiteralPool.ofRecords n records with
        records := (LiteralPool.ofRecords n records).records.map Record.promoted } := by
  simp only [ofRecords, Tally.running_map, Tally.total_eq_sum, List.map_map, List.flatMap_map]
  rfl

theorem Layout.ofRecords_promoted (scoping : Bool) (generated : List Record) :
    Layout.ofRecords scoping (records.map Record.promoted) generated =
      { Layout.ofRecords scoping records generated with
        records := (Layout.ofRecords scoping records generated).records.map Record.promoted } := by
  simp only [ofRecords, place, assignScopes, byteLength, Tally.running_map, Tally.total_eq_sum,
    List.map_map]
  rfl

theorem LabelTable.ofRecords_promoted (generated : List Record) :
    LabelTable.ofRecords (records.map Record.promoted) generated =
      LabelTable.ofRecords records generated := by
  have hdeclare : (fun state r => declare state (Record.promoted r)) = declare := by
    funext state r
    simp only [declare, addLabel, Record.labelLocation_promoted]
    rfl
  simp only [ofRecords, List.foldl_map, hdeclare]
  rfl

theorem Resolution.ofRecords_promoted (reading : AddressReading) (labels : LabelTable) :
    Resolution.ofRecords reading labels (records.map Record.promoted) =
      { Resolution.ofRecords reading labels records with
        records := (Resolution.ofRecords reading labels records).records.map Record.promoted } := by
  simp only [ofRecords, LabelTable.referByRecords, List.foldl_map, List.map_map, List.flatMap_map]
  rfl

theorem Image.ofRecords_promoted (generated : List Record) (labels : LabelTable) :
    Image.ofRecords (records.map Record.promoted) generated labels =
      Image.ofRecords records generated labels := by
  simp only [ofRecords, entryPoint, code, List.head?_map, Option.bind_map, List.mapM_append,
    List.mapM_map]
  rfl

end

namespace Assembly

open Statement (Reading)

/-- The program if the stack pointer may be named. -/
def Analysis.promoted (a : Analysis) : Analysis :=
  { a with records := a.records.map Record.promoted }

theorem analyzeRecords_promoted (scoping : Bool) (reading : Reading) :
    analyzeRecords scoping reading.promoted = (analyzeRecords scoping reading).promoted := by
  simp only [analyzeRecords, Reading.promoted, Analysis.promoted, LiteralPool.ofRecords_promoted,
    Layout.ofRecords_promoted, LabelTable.ofRecords_promoted, Resolution.ofRecords_promoted,
    List.flatMap_map, Record.check_promoted]

theorem Analysis.image?_promoted (a : Analysis) : a.promoted.image? = a.image? := by
  rw [image?, image?, promoted, Image.ofRecords_promoted]

theorem Analysis.compile_promoted {a : Analysis} {c : Compilation} (h : a.compile = .ok c) :
    ∃ c', a.promoted.compile = .ok c' ∧ c'.words = c.words ∧ c'.diagnostics = c.diagnostics ∧
      c'.labels = c.labels := by
  obtain ⟨words, himage, rfl⟩ := Traversal.bind_pure_eq_ok.1 h
  refine ⟨_, Traversal.bind_pure_eq_ok.2 ⟨words, ?_, rfl⟩, rfl, rfl, rfl⟩
  rw [image?_promoted, himage]

/-- A program that has an image if the stack pointer may not be named has the same image,
diagnostics and labels if it may. -/
theorem compile_namingStackPointer {scoping : Bool} {lines : List String} {c : Compilation}
    {w : List Word} (hc : compile { gr8 := false, scoping } lines = .ok c)
    (hw : c.words = some w) :
    ∃ c', compile { gr8 := true, scoping } lines = .ok c' ∧ c'.words = some w ∧
      c'.diagnostics = c.diagnostics ∧ c'.labels = c.labels := by
  obtain ⟨reading, hread, -⟩ := exists_readLines false lines
  obtain ⟨herrors, -⟩ := compile_eq_ok hread hc hw
  have hread' := readLines_true hread (hasErrors_analyzeRecords.1 herrors).1
  obtain ⟨c', hc', hwords, hdiagnostics, hlabels⟩ :=
    Analysis.compile_promoted ((compile_eq_ok_iff hread).1 hc)
  rw [← analyzeRecords_promoted] at hc'
  exact ⟨c', (compile_eq_ok_iff hread').2 hc', hwords.trans hw, hdiagnostics, hlabels⟩

/-- A program that names the stack pointer only where nothing is read. -/
def remarkedStackPointer : List String :=
  ["MAIN START", " LAD GR1,1", " RET GR8 ; GR8", " END"]

theorem compile_remarkedStackPointer :
    ∃ c c', compile { gr8 := false } remarkedStackPointer = .ok c ∧
      c.words = some [0, 0, 0, 0, 0, 0, 0, 0, 0x1210, 1, 0x8100] ∧ c.diagnostics.length = 1 ∧
      compile { gr8 := true } remarkedStackPointer = .ok c' ∧
      c'.words = some [0, 0, 0, 0, 0, 0, 0, 0, 0x1210, 1, 0x8100] ∧
      c'.diagnostics = c.diagnostics := by
  have hfound : ∃ c ∈ (compile { gr8 := false } remarkedStackPointer).toOption,
      c.words = some [0, 0, 0, 0, 0, 0, 0, 0, 0x1210, 1, 0x8100] ∧ c.diagnostics.length = 1 := by
    decide +kernel
  obtain ⟨c, hc, hw, hlength⟩ := hfound
  have hc' := Traversal.toOption_eq_some.1 hc
  obtain ⟨c', hcompile, hwords, hdiagnostics, -⟩ := compile_namingStackPointer hc' hw
  exact ⟨c, c', hc', hw, hlength, hcompile, hwords, hdiagnostics⟩

end Assembly

end Comet
