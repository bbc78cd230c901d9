import Comet.Proofs.StatementRecognition
import Mathlib.Data.List.TakeWhile

/-!
# Lines that are read in full

A line without line feeds is scanned into tokens of which only the last one ends the
line, apart from a comment right before it. What is left after the operands of a
statement is therefore at the end of the line exactly if it is a trailer.

A line gives records and nothing to remark exactly if its tokens write a statement, and
the records are then the ones that the statement denotes.
-/

namespace Comet

namespace Token

/-- The tokens up to the end of a line. Nothing follows a comment. -/
inductive EndLine : List Token → Prop
  | stop {token : Token} (kind : token.kind = .endOfLine) : EndLine [token]
  | comment {token stop : Token} (kind : token.kind = .comment)
      (stop_kind : stop.kind = .endOfLine) : EndLine [token, stop]
  | cons {token : Token} {tokens : List Token} (inner : token.kind.endsLine = false)
      (rest : EndLine tokens) : EndLine (token :: tokens)

theorem Kind.endsLine_ofName (gr8 : Bool) (name : String) :
    (Kind.ofName gr8 name).endsLine = false := by
  rcases Kind.ofName_cases gr8 name with h | h | h <;> rw [h] <;> rfl

namespace Lexeme

variable {gr8 : Bool} {cs : List Char} {l : Lexeme}

/-- A comment takes the rest of a line. -/
theorem endsLine_of_first? (h : first? gr8 cs = some l) (hline : '\n' ∉ cs) :
    l.kind.endsLine = false ∨ l.kind = .comment ∧ l.rest = [] := by
  cases cs with
  | nil => cases h
  | cons c cs =>
    rw [first?] at h
    split at h
    · cases h
      exact .inl (Kind.endsLine_ofName _ _)
    split at h
    · cases h
      exact .inl rfl
    split at h
    · cases h
      exact .inl rfl
    split at h
    · cases h
      refine .inr ⟨rfl, ?_⟩
      have hall : ∀ d ∈ cs, (d != '\n') = true := fun d hd =>
        bne_iff_ne.2 fun heq => hline (.tail _ (heq ▸ hd))
      exact List.dropWhile_eq_nil_iff.2 hall
    split at h
    · obtain ⟨l', hl, rfl⟩ := Option.map_eq_some_iff.1 h
      obtain ⟨form, hkind, -⟩ := isConstant_of_constant? hl
      exact .inl (by rw [hkind]; rfl)
    · obtain ⟨form, hkind, -⟩ := isConstant_of_constant? h
      exact .inl (by rw [hkind]; rfl)

end Lexeme

variable {gr8 : Bool}

theorem endLine_of_scanFrom {line column : Nat} {cs : List Char} {tokens : List Token}
    (h : scanFrom gr8 line column cs = .ok tokens) (hline : '\n' ∉ cs) : EndLine tokens := by
  fun_induction scanFrom gr8 line column cs generalizing tokens with
  | case1 column cs hempty =>
    cases h
    exact .stop rfl
  | case2 => cases h
  | case3 column cs hempty l hfirst ih =>
    obtain ⟨rest, hrest, rfl⟩ := Traversal.bind_pure_eq_ok.1 h
    have hsplits := (Lexeme.splits_of_first? hfirst).1
    have hline' : '\n' ∉ l.rest := fun hmem => hline (hsplits ▸ List.mem_append_right _ hmem)
    rcases Lexeme.endsLine_of_first? hfirst hline with hinner | ⟨hkind, hnil⟩
    · exact .cons hinner (ih hrest hline')
    · rw [hnil, scanFrom] at hrest
      cases hrest
      exact .comment hkind rfl

theorem endLine_of_scan {line : Nat} {source : String} {tokens : List Token}
    (h : scan gr8 line source = .ok tokens) (hline : '\n' ∉ source.toList) : EndLine tokens :=
  endLine_of_scanFrom (scan_eq_ok_iff.1 h) hline

/-- Tokens that do not end a line leave the end of the line to what follows them. -/
theorem EndLine.of_append {front rest : List Token} (h : EndLine (front ++ rest))
    (hfront : ∀ t ∈ front, t.kind.endsLine = false) : EndLine rest := by
  induction front with
  | nil => exact h
  | cons token front ih =>
    have hinner := hfront token (.head _)
    have hends (kind : Kind) (hkind : token.kind = kind) : kind.endsLine = false := hkind ▸ hinner
    generalize happend : token :: front ++ rest = tokens at h
    rw [List.cons_append] at happend
    cases h with
    | stop kind =>
      injection happend with htoken
      cases hends .endOfLine (htoken ▸ kind)
    | comment kind =>
      injection happend with htoken
      cases hends .comment (htoken ▸ kind)
    | cons _ hrest =>
      injection happend with _ htokens
      exact ih (htokens ▸ hrest) fun t ht => hfront t (.tail _ ht)

/-- The tokens that a statement is made of besides the name of its instruction. -/
inductive IsPart (token : Token) : Prop
  | space (kind : token.kind = .space)
  | comma (kind : token.kind = .comma)
  | register {r : Register} (register : token.IsRegister r)
  | symbol (symbol : token.IsSymbol)
  | constant {form : ConstantForm} (kind : token.kind = .constant form)
  | literal {form : ConstantForm} (kind : token.kind = .literal form)

theorem IsPart.endsLine_eq {token : Token} (h : token.IsPart) : token.kind.endsLine = false := by
  cases h with
  | space kind | comma kind | constant kind | literal kind => simp [kind, Kind.endsLine]
  | register register => exact Statement.Line.endsLine_of_isRegister register
  | symbol symbol => exact Statement.Line.endsLine_of_isSymbol symbol

theorem WritesAddress.isPart {token : Token} {adr : Operand} (h : token.WritesAddress adr) :
    token.IsPart := by
  cases h with
  | number kind => exact .constant kind
  | symbol symbol => exact .symbol symbol
  | literal kind => exact .literal kind

theorem WritesData.isPart {token : Token} {words : List Operand} (h : token.WritesData words) :
    token.IsPart := by
  cases h with
  | constant kind => exact .constant kind
  | symbol symbol => exact .symbol symbol

end Token

namespace Statement

/-! ## Where a line ends -/

theorem atEnd_of_isTrailer {tokens : List Token} (h : IsTrailer tokens) : atEnd tokens = true := by
  cases h with
  | @mk blank comment stop blank_kind comment_kind stop_kind =>
    cases blank <;> cases comment <;> simp_all [atEnd, Token.Kind.endsLine]

/-- At the end of a line there is nothing but a trailer. -/
theorem isTrailer_of_atEnd {tokens : List Token} (h : Token.EndLine tokens)
    (hend : atEnd tokens = true) : IsTrailer tokens := by
  cases h with
  | @stop stop kind => exact @IsTrailer.mk none none stop (by simp) (by simp) kind
  | @comment comment stop kind stop_kind =>
    exact @IsTrailer.mk none (some comment) stop (by simp) (by simpa using kind) stop_kind
  | @cons blank tokens inner rest =>
    have hblank : blank.kind = .space := by
      by_contra hne
      rw [atEnd_cons_of_ne hne inner] at hend
      cases hend
    cases rest with
    | @stop stop kind =>
      exact @IsTrailer.mk (some blank) none stop (by simpa using hblank) (by simp) kind
    | @comment comment stop kind stop_kind =>
      exact @IsTrailer.mk (some blank) (some comment) stop (by simpa using hblank)
        (by simpa using kind) stop_kind
    | cons inner' =>
      rw [atEnd_cons_space hblank, inner'] at hend
      cases hend

theorem isPart_of_isHead {tokens : List Token} {label : Option String} (h : IsHead tokens label) :
    ∀ t ∈ tokens, t.IsPart := by
  cases h with
  | nothing => simp
  | blank blank => simpa using Token.IsPart.space blank
  | label symbol blank => simpa using ⟨.symbol symbol, .space blank⟩

theorem isPart_of_isIndex {tokens : List Token} {x : Option Register} (h : IsIndex tokens x) :
    ∀ t ∈ tokens, t.IsPart := by
  cases h with
  | absent => simp
  | present separator register => simpa using ⟨.comma separator, .register register⟩

theorem isPart_of_isConstantList {tokens : List Token} {words : List Operand}
    (h : IsConstantList tokens words) : ∀ t ∈ tokens, t.IsPart := by
  induction h with
  | last data => simpa using data.isPart
  | more data separator _ ih => simpa using ⟨data.isPart, .comma separator, ih⟩

/-- No operand is an instruction or ends a line. -/
theorem isPart_of_isOperandList {m : Mnemonic} {tokens : List Token} {operands : Operands}
    (h : IsOperandList m tokens operands) : ∀ t ∈ tokens, t.IsPart := by
  cases h with
  | none => simp
  | register _ blank register => simpa using ⟨.space blank, .register register⟩
  | address _ blank address index =>
    simpa using ⟨.space blank, address.isPart, isPart_of_isIndex index⟩
  | registerAddress _ blank register separator address index =>
    simpa using ⟨.space blank, .register register, .comma separator, address.isPart,
      isPart_of_isIndex index⟩
  | registers _ blank register separator register' =>
    simpa using ⟨.space blank, .register register, .comma separator, .register register'⟩
  | buffer _ blank address separator address' =>
    simpa using ⟨.space blank, address.isPart, .comma separator, address'.isPart⟩
  | noEntry => simp
  | entry _ blank symbol => simpa using ⟨.space blank, .symbol symbol⟩
  | wordCount _ blank kind => simpa using ⟨.space blank, .constant kind⟩
  | constants _ blank constants =>
    simpa using ⟨.space blank, isPart_of_isConstantList constants⟩

/-! ## The records of a statement -/

theorem exists_code_of_bind {m : Mnemonic} {g : UInt8 → List Body} {bs : List Body}
    (h : (opcode m >>= fun code => pure (g code)) = .ok bs) :
    ∃ code, m.code = some code ∧ bs = g code := by
  obtain ⟨code, hcode, rfl⟩ := Traversal.bind_pure_eq_ok.1 h
  rw [opcode] at hcode
  split at hcode
  · cases hcode
    exact ⟨code, by assumption, rfl⟩
  · cases hcode

theorem hasBodies_of_bodies {s : Statement} {bs : List Body} (h : s.bodies = .ok bs) :
    HasBodies s.mnemonic s.operands bs := by
  obtain ⟨label, m, operands⟩ := s
  cases operands with
  | none =>
    cases hcode : m.code with
    | none =>
      simp only [bodies, hcode, Except.ok.injEq] at h
      exact h ▸ .finish hcode
    | some code =>
      simp only [bodies, hcode, Except.ok.injEq] at h
      exact h ▸ .operation hcode
  | register r =>
    obtain ⟨code, hcode, rfl⟩ := exists_code_of_bind h
    exact .register hcode
  | address adr x =>
    obtain ⟨code, hcode, rfl⟩ := exists_code_of_bind h
    exact .address hcode
  | registerAddress r adr x =>
    obtain ⟨code, hcode, rfl⟩ := exists_code_of_bind h
    exact .registerAddress hcode
  | registers r1 r2 =>
    obtain ⟨code, hcode, rfl⟩ := exists_code_of_bind h
    exact .registers hcode
  | buffer buffer length =>
    obtain ⟨code, hcode, rfl⟩ := exists_code_of_bind h
    exact .transfer hcode
  | entry target =>
    cases h
    exact .start
  | wordCount count =>
    cases count with
    | zero =>
      cases h
      exact .labelOnly
    | succ count =>
      cases h
      exact .fillers (Nat.succ_pos count)
  | constants words =>
    cases h
    exact .data

/-- Computing the bodies of a statement follows the relation. -/
theorem bodies_eq_ok_iff {s : Statement} {bs : List Body} :
    s.bodies = .ok bs ↔ HasBodies s.mnemonic s.operands bs := by
  refine ⟨hasBodies_of_bodies, fun h => ?_⟩
  obtain ⟨label, m, operands⟩ := s
  cases h with
  | operation hcode | finish hcode =>
    dsimp only at hcode
    simp only [bodies, hcode]
  | register hcode | address hcode | registerAddress hcode | registers hcode
  | transfer hcode =>
    simp only [bodies, opcode_eq hcode]
    rfl
  | start | labelOnly | data => rfl
  | @fillers count positive =>
    cases count with
    | zero => cases positive
    | succ count => rfl

theorem areBodies_of_hasBodies {s : Statement} (h : s.WellFormed) {bs : List Body}
    (hbs : HasBodies s.mnemonic s.operands bs) : AreBodies s.mnemonic bs := by
  obtain ⟨bs', hbodies, hall⟩ := exists_bodies h
  rw [bodies_eq_ok_iff.2 hbs] at hbodies
  cases hbodies
  exact hall

theorem records_eq_recordsOf {s : Statement} (h : s.WellFormed) {bs : List Body}
    (hbs : HasBodies s.mnemonic s.operands bs) (line : Nat) (tokens : List Token) :
    s.records line tokens = .ok (s.recordsOf line tokens bs) := by
  have hall := areBodies_of_hasBodies h hbs
  cases bs with
  | nil => exact absurd rfl hall.nonempty
  | cons b rest =>
    have hmake (label : Option String) (b' : Body) (hb' : b' ∈ b :: rest) :=
      make_eq_ok h.mnemonic (hall.form b' hb') s.mnemonic.name label line
    have hothers : rest.mapM (fun b' => Record.make s.mnemonic.name b' none line) =
        .ok (rest.map fun b' =>
          { label := none, mnemonic := s.mnemonic.name, body := b', line }) := by
      rw [Traversal.mapM_eq_ok_iff, List.forall₂_map_right_iff, List.forall₂_same]
      exact fun b' hb' => hmake none b' (.tail _ hb')
    simp only [records, bodies_eq_ok_iff.2 hbs, hmake s.label b (.head _), hothers, bind,
      Except.bind, pure, Except.pure, recordsOf, List.map_map]
    rfl

theorem recordsOf_ne_nil {s : Statement} {bs : List Body} (h : bs ≠ []) (line : Nat)
    (tokens : List Token) : s.recordsOf line tokens bs ≠ [] := by
  cases bs with
  | nil => exact absurd rfl h
  | cons b rest => simp [recordsOf]

@[simp] theorem map_body_recordsOf (s : Statement) (line : Nat) (tokens : List Token)
    (bs : List Body) : (s.recordsOf line tokens bs).map (·.body) = bs := by
  cases bs with
  | nil => rfl
  | cons b rest => simp [recordsOf, Function.comp_def]

theorem of_mem_recordsOf {s : Statement} {line : Nat} {tokens : List Token} {bs : List Body}
    {r : Record} (h : r ∈ s.recordsOf line tokens bs) :
    r.mnemonic = s.mnemonic.name ∧ (r.label = s.label ∨ r.label = none) ∧ r.line = line := by
  cases bs with
  | nil => cases h
  | cons b rest =>
    rcases List.mem_cons.1 h with rfl | h
    · exact ⟨rfl, .inl rfl, rfl⟩
    · obtain ⟨b', -, rfl⟩ := List.mem_map.1 h
      exact ⟨rfl, .inr rfl, rfl⟩

/-! ## Lines -/

section Lines

variable {gr8 : Bool} {number : Nat} {tokens : List Token}

/-- A line with the name of an instruction behind its head is not empty. -/
theorem atEnd_of_isHead {head after : List Token} {label : Option String} {token : Token}
    (isHead : IsHead head label) (kind : token.kind = .mnemonic) :
    atEnd (head ++ token :: after) = false := by
  have htoken : token.kind.endsLine = false := by simp [kind, Token.Kind.endsLine]
  cases isHead with
  | nothing => exact atEnd_cons_of_ne (by simp [kind]) htoken _
  | blank blank => exact (atEnd_cons_space blank _ _).trans htoken
  | label symbol =>
    have hne : ∀ kind : Token.Kind, kind = .label ∨ kind = .mnemonic → kind ≠ .space := by
      rintro _ (rfl | rfl) <;> simp
    exact atEnd_cons_of_ne (hne _ symbol.kind) (Line.endsLine_of_isSymbol symbol) _

/-- A line that has a statement is not empty. -/
theorem atEnd_of_statement (hspelled : AllSpelled gr8 tokens) {line : Line} {s : Statement}
    {rest : List Token} (h : line.statement tokens = .ok (s, rest)) : atEnd tokens = false := by
  obtain ⟨head, token, operandTokens, rfl, hhead, hkind, -⟩ := line.exists_parts hspelled h
  exact atEnd_of_isHead hhead hkind

theorem atEnd_of_isLine {s : Statement} (h : IsLine tokens s) : atEnd tokens = false := by
  cases h with
  | mk isHead kind => exact atEnd_of_isHead isHead kind

theorem remark_eq_nil (line : Line) : line.remark tokens = [] ↔ atEnd tokens = true := by
  rw [Line.remark]
  cases atEnd tokens <;> simp

/-- A statement that the tokens write is read up to the end of the line. -/
theorem statement_of_isLine (hspelled : AllSpelled gr8 tokens) (line : Line) {s : Statement}
    (h : IsLine tokens s) :
    ∃ rest, line.statement tokens = .ok (s, rest) ∧ atEnd rest = true := by
  cases h with
  | @mk head operandTokens trailer label token m operands isHead kind row isOperandList isTrailer
      bare =>
    have hend := atEnd_of_isTrailer isTrailer
    have hstop := Line.stopBefore_of_atEnd hend operands
    exact ⟨trailer, line.statement_of_parts hspelled hstop isHead kind row isOperandList bare,
      hend⟩

/-- A statement is read up to the end of a line exactly if the tokens write it. -/
theorem statement_eq_ok_iff (hspelled : AllSpelled gr8 tokens) (hline : Token.EndLine tokens)
    (number : Nat) {s : Statement} :
    (∃ rest, (Line.ofTokens number tokens).statement tokens = .ok (s, rest) ∧
      atEnd rest = true) ↔ IsLine tokens s := by
  generalize Line.ofTokens number tokens = line
  constructor
  · rintro ⟨rest, h, hend⟩
    obtain ⟨head, token, operandTokens, rfl, hhead, hkind, hrow, hoperands, -, hbare⟩ :=
      line.exists_parts hspelled h
    -- No token of the statement ends the line, so it is the rest that does.
    have hrest : Token.EndLine rest := by
      rw [← List.cons_append, ← List.append_assoc] at hline
      apply hline.of_append
      have htoken : token.kind.endsLine = false := by simp [hkind, Token.Kind.endsLine]
      intro t ht
      rcases List.mem_append.1 ht with ht | ht
      · exact (isPart_of_isHead hhead t ht).endsLine_eq
      rcases List.mem_cons.1 ht with rfl | ht
      · exact htoken
      · exact (isPart_of_isOperandList hoperands t ht).endsLine_eq
    exact .mk hhead hkind hrow hoperands (isTrailer_of_atEnd hrest hend) hbare
  · exact statement_of_isLine hspelled line

/-- A statement that is read up to the end of a line gives the records that it denotes. -/
theorem read_of_statement (hspelled : AllSpelled gr8 tokens) {s : Statement} {rest : List Token}
    (hs : (Line.ofTokens number tokens).statement tokens = .ok (s, rest))
    (hbegin : atEnd tokens = false) (hend : atEnd rest = true) {bodies : List Body}
    (hbodies : HasBodies s.mnemonic s.operands bodies) :
    read number tokens = .ok ⟨s.recordsOf number tokens bodies, []⟩ := by
  have hwf := (Line.ofTokens number tokens).reads_statement hspelled hbegin
  rw [hs] at hwf
  have hremark := (remark_eq_nil (Line.ofTokens number tokens)).2 hend
  simp only [read, hbegin, hs, records_eq_recordsOf hwf.1 hbodies, hremark, bind, Except.bind, pure,
    Except.pure, Bool.false_eq_true, if_false]

/-- A line that writes a statement gives the records that the statement denotes. -/
theorem read_of_isLine (hspelled : AllSpelled gr8 tokens) (hline : Token.EndLine tokens)
    (number : Nat) {s : Statement} (h : IsLine tokens s) {bodies : List Body}
    (hbodies : HasBodies s.mnemonic s.operands bodies) :
    read number tokens = .ok ⟨s.recordsOf number tokens bodies, []⟩ ∧
      s.recordsOf number tokens bodies ≠ [] := by
  have hwf := (Line.ofTokens number tokens).reads_statement hspelled (atEnd_of_isLine h)
  obtain ⟨rest, hs, hend⟩ := (statement_eq_ok_iff hspelled hline number).2 h
  rw [hs] at hwf
  refine ⟨read_of_statement hspelled hs (atEnd_of_isLine h) hend hbodies, ?_⟩
  exact recordsOf_ne_nil (areBodies_of_hasBodies hwf.1 hbodies).nonempty number tokens

/-- A line is empty, or wrong, or a statement is read from it. -/
theorem read_cases (hspelled : AllSpelled gr8 tokens) {reading : Reading}
    (h : read number tokens = .ok reading) :
    atEnd tokens = true ∧ reading = ⟨[], []⟩ ∨
      (∃ d, (Line.ofTokens number tokens).Arises tokens d ∧ reading = ⟨[], [d]⟩) ∨
      atEnd tokens = false ∧ ∃ s rest bodies,
        (Line.ofTokens number tokens).statement tokens = .ok (s, rest) ∧ s.WellFormed ∧
        rest <:+ tokens ∧ HasBodies s.mnemonic s.operands bodies ∧
        reading =
          ⟨s.recordsOf number tokens bodies, (Line.ofTokens number tokens).remark rest⟩ := by
  rw [read] at h
  split at h
  · rename_i hend
    cases h
    exact .inl ⟨hend, rfl⟩
  rename_i hend
  have hreads :=
    (Line.ofTokens number tokens).reads_statement hspelled (Bool.eq_false_iff.2 hend)
  split at h
  · rename_i d hs
    rw [hs] at hreads
    cases h
    exact .inr (.inl ⟨d, hreads, rfl⟩)
  · cases h
  · rename_i s rest hs
    rw [hs] at hreads
    obtain ⟨hwf, hrest⟩ := hreads
    obtain ⟨records, hrecords, rfl⟩ := Traversal.bind_pure_eq_ok.1 h
    obtain ⟨bodies, hbodies, -⟩ := exists_bodies hwf
    have hhas := bodies_eq_ok_iff.1 hbodies
    rw [records_eq_recordsOf hwf hhas] at hrecords
    cases hrecords
    exact .inr (.inr ⟨Bool.eq_false_iff.2 hend, s, rest, bodies, hs, hwf, hrest, hhas, rfl⟩)

/-- A line that gives records without remarks writes a statement. -/
theorem exists_isLine_of_read (hspelled : AllSpelled gr8 tokens) (hline : Token.EndLine tokens)
    {records : List Record} (h : read number tokens = .ok ⟨records, []⟩) (hne : records ≠ []) :
    ∃ s bodies, IsLine tokens s ∧ HasBodies s.mnemonic s.operands bodies ∧
      records = s.recordsOf number tokens bodies := by
  rcases read_cases hspelled h with
    ⟨-, heq⟩ | ⟨d, -, heq⟩ | ⟨-, s, rest, bodies, hs, -, -, hhas, heq⟩
  · cases heq
    exact absurd rfl hne
  · cases heq
  · injection heq with hrecords hremark
    have hend := (remark_eq_nil _).1 hremark.symm
    have hisLine := (statement_eq_ok_iff hspelled hline number).1 ⟨rest, hs, hend⟩
    exact ⟨s, bodies, hisLine, hhas, hrecords⟩

/-- A line gives records without remarks exactly if its tokens write a statement, and they
are the records that the statement denotes. -/
theorem read_eq_ok_iff_isLine {source : String} (hscan : Token.scan gr8 number source = .ok tokens)
    (hline : '\n' ∉ source.toList) (records : List Record) :
    (read number tokens = .ok ⟨records, []⟩ ∧ records ≠ []) ↔
      ∃ s bodies, IsLine tokens s ∧ HasBodies s.mnemonic s.operands bodies ∧
        records = s.recordsOf number tokens bodies := by
  have hspelled : AllSpelled gr8 tokens := Token.spelled_of_scan hscan
  have hends := Token.endLine_of_scan hscan hline
  constructor
  · rintro ⟨h, hne⟩
    exact exists_isLine_of_read hspelled hends h hne
  · rintro ⟨s, bodies, hisLine, hbodies, rfl⟩
    exact read_of_isLine hspelled hends number hisLine hbodies

end Lines

/-- A line with a label, data of all kinds and a comment. -/
def commentedData : String := "DATA DC 1, X,'IT''S' ; note"

theorem isLine_commentedData :
    ∃ tokens s bodies, Token.scan false 0 commentedData = .ok tokens ∧
      '\n' ∉ commentedData.toList ∧ IsLine tokens s ∧
      HasBodies s.mnemonic s.operands bodies ∧
      (s.recordsOf 0 tokens bodies).map (·.body) =
        [.data (.resolved 1), .data (.symbol "X" ⟨11, 12⟩), .data (.resolved 73),
          .data (.resolved 84), .data (.resolved 39), .data (.resolved 83)] := by
  have hline : '\n' ∉ commentedData.toList := by decide +kernel
  have hread : (Token.scan false 0 commentedData).toOption.bind (fun tokens =>
      (read 0 tokens).toOption.map fun reading =>
        (reading.records.map (·.body), reading.diagnostics)) =
      some ([.data (.resolved 1), .data (.symbol "X" ⟨11, 12⟩), .data (.resolved 73),
        .data (.resolved 84), .data (.resolved 39), .data (.resolved 83)], []) := by
    decide +kernel
  cases hscan : Token.scan false 0 commentedData with
  | error d => simp [hscan, Except.toOption] at hread
  | ok tokens =>
    cases hreading : read 0 tokens with
    | error f => simp [hscan, hreading, Except.toOption] at hread
    | ok reading =>
      obtain ⟨records, diagnostics⟩ := reading
      simp only [hscan, hreading, Except.toOption, Option.bind_some, Option.map_some,
        Option.some.injEq, Prod.mk.injEq] at hread
      obtain ⟨hbodies, rfl⟩ := hread
      have hne : records ≠ [] := by
        rintro rfl
        cases hbodies
      obtain ⟨s, bodies, hisLine, hhas, rfl⟩ :=
        (read_eq_ok_iff_isLine hscan hline records).1 ⟨hreading, hne⟩
      exact ⟨tokens, s, bodies, rfl, hline, hisLine, hhas, hbodies⟩

end Statement

end Comet
