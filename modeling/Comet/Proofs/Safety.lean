import Comet.Listing
import Comet.Proofs.LineGrammar
import Comet.Proofs.Encodable

/-!
# No source text leads to a fault

Scanning, reading and listing rely on facts that they do not check: that a line is cut
between characters, that the name of an instruction is in the table, that a string has two
quotes and an instruction the operation code that its operands need, that every operation
code has a length, and that a record comes from a line of the source. Each of them is
established elsewhere. `IsSafe` lists them, and `isSafe` proves them for every source text.

Tokens and records that were put together by hand need not have these properties, and
they do lead to faults.
-/

namespace Comet

/-! ## Places where a token is looked for -/

namespace Text

theorem utf8ByteSize_ofList (cs : List Char) :
    (String.ofList cs).utf8ByteSize = byteLength cs := by
  induction cs with
  | nil => rfl
  | cons c cs ih =>
    rw [String.ofList_cons, String.utf8ByteSize_append, String.utf8ByteSize_singleton, ih,
      byteLength_cons]

/-- A column that follows whole characters is between two characters of the encoded text. -/
theorem isValid_of_append {source : String} {before rest : List Char}
    (h : source.toList = before ++ rest) :
    String.Pos.Raw.IsValid source ⟨byteLength before⟩ := by
  refine String.Pos.Raw.isValid_iff_exists_append.2
    ⟨String.ofList before, String.ofList rest, ?_, ?_⟩
  · rw [← String.ofList_append, ← h, String.ofList_toList]
  · rw [String.rawEndPos, utf8ByteSize_ofList]

end Text

namespace Token

/-- Scanning a text from a column on looks for a token at the second column, where the second
text is left. -/
inductive Visits (gr8 : Bool) : Nat → List Char → Nat → List Char → Prop
  | here {column : Nat} {cs : List Char} : Visits gr8 column cs column cs
  | later {column column' : Nat} {cs rest : List Char} {l : Lexeme}
      (first : Lexeme.first? gr8 cs = some l)
      (visits : Visits gr8 (column + Text.byteLength l.text) l.rest column' rest) :
      Visits gr8 column cs column' rest

variable {gr8 : Bool} {line column column' : Nat} {cs rest : List Char}

/-- Only whole characters stand before such a place. -/
theorem Visits.exists_before (h : Visits gr8 column cs column' rest) :
    ∃ before, cs = before ++ rest ∧ column' = column + Text.byteLength before := by
  induction h with
  | here => exact ⟨[], rfl, rfl⟩
  | @later column column' cs rest l first _ ih =>
    obtain ⟨before, hrest, rfl⟩ := ih
    refine ⟨l.text ++ before, ?_, ?_⟩
    · rw [← (Lexeme.splits_of_first? first).1, hrest, List.append_assoc]
    · rw [Text.byteLength_append, Nat.add_assoc]

theorem Visits.isValid {source : String} (h : Visits gr8 0 source.toList column rest) :
    String.Pos.Raw.IsValid source ⟨column⟩ := by
  obtain ⟨before, hsource, rfl⟩ := h.exists_before
  rw [Nat.zero_add]
  exact Text.isValid_of_append hsource

/-- A token is what stands at such a place. -/
theorem exists_visits_of_mem {tokens : List Token}
    (h : scanFrom gr8 line column cs = .ok tokens) {token : Token} (htoken : token ∈ tokens) :
    ∃ rest, Visits gr8 column cs token.span.start (token.text.toList ++ rest) ∧
      token.span = .ofText token.span.start token.text.toList := by
  fun_induction scanFrom gr8 line column cs generalizing tokens with
  | case1 column cs hempty =>
    cases h
    cases List.mem_singleton.1 htoken
    rw [List.isEmpty_iff.1 hempty]
    exact ⟨[], .here, rfl⟩
  | case2 => cases h
  | case3 column cs hempty l hl ih =>
    obtain ⟨tokens, hscan, rfl⟩ := Traversal.bind_pure_eq_ok.1 h
    rcases List.mem_cons.1 htoken with rfl | htoken
    · refine ⟨l.rest, ?_, by simp [ofText, Span.ofText]⟩
      rw [ofText, String.toList_ofList, (Lexeme.splits_of_first? hl).1]
      exact .here
    · obtain ⟨rest, hvisits, hspan⟩ := ih hscan htoken
      exact ⟨rest, .later hl hvisits, hspan⟩

/-- The token was cut out of the line, at a place where it was looked for. -/
structure IsCutFrom (gr8 : Bool) (source : String) (token : Token) : Prop where
  visits : ∃ rest, Visits gr8 0 source.toList token.span.start (token.text.toList ++ rest)
  stop : String.Pos.Raw.IsValid source ⟨token.span.stop⟩

theorem isCutFrom_of_mem_scan {number : Nat} {source : String} {tokens : List Token}
    (h : scanFrom gr8 number 0 source.toList = .ok tokens) {token : Token}
    (htoken : token ∈ tokens) : token.IsCutFrom gr8 source := by
  obtain ⟨rest, hvisits, hspan⟩ := exists_visits_of_mem h htoken
  refine ⟨⟨rest, hvisits⟩, ?_⟩
  obtain ⟨before, hsource, hstart⟩ := hvisits.exists_before
  rw [← List.append_assoc] at hsource
  have hvalid := Text.isValid_of_append hsource
  rw [Text.byteLength_append] at hvalid
  rw [hspan, hstart, Nat.zero_add]
  exact hvalid

/-- If a line cannot be scanned, no token begins at the place that is reported. -/
theorem exists_visits_of_error (h : scanFrom gr8 line column cs = .error column') :
    ∃ rest, Visits gr8 column cs column' rest ∧ Lexeme.first? gr8 rest = none := by
  fun_induction scanFrom gr8 line column cs with
  | case1 => cases h
  | case2 column cs hempty hnone =>
    cases h
    exact ⟨cs, .here, hnone⟩
  | case3 column cs hempty l hl ih =>
    obtain ⟨rest, hvisits, hnone⟩ := ih (Traversal.bind_pure_eq_error.1 h)
    exact ⟨rest, .later hl hvisits, hnone⟩

/-! ## Tokens -/

/-- The text of a token has what those who read it look for, given its kind. -/
structure IsReadable (token : Token) : Prop where
  mnemonic : token.kind = .mnemonic → ∃ m ∈ Mnemonic.table, m.name = token.text
  /-- The two quotes are different characters. -/
  string : token.kind = .constant .string →
    ∃ inside, token.text.toList = Text.Quoted.quote :: (inside ++ [Text.Quoted.quote])
  literal : ∀ form, token.kind = .literal form → ∃ cs, token.text.toList = '=' :: cs
  stringLiteral : token.kind = .literal .string →
    ∃ inside, token.text.toList = '=' :: Text.Quoted.quote :: (inside ++ [Text.Quoted.quote])

theorem IsConstant.exists_inside {cs : List Char} (h : IsConstant .string cs) :
    ∃ inside, cs = Text.Quoted.quote :: (inside ++ [Text.Quoted.quote]) := by
  cases h with
  | string closed =>
    obtain ⟨inside, rfl⟩ := List.getLast?_eq_some_iff.1 closed
    exact ⟨inside, rfl⟩

theorem IsSpelled.isReadable {token : Token} (h : token.IsSpelled gr8) :
    token.IsReadable where
  mnemonic := by
    intro hkind
    obtain ⟨m, hm⟩ := Option.isSome_iff_exists.1 (h.ofName?_isSome hkind)
    exact ⟨m, Mnemonic.mem_of_ofName? hm, Mnemonic.name_of_ofName? hm⟩
  string := fun hkind => (h.constant hkind).exists_inside
  literal := by
    intro form hkind
    obtain ⟨cs, hcs, -⟩ := h.literal hkind
    exact ⟨cs, hcs⟩
  stringLiteral := by
    intro hkind
    obtain ⟨cs, hcs, hconstant⟩ := h.literal hkind
    obtain ⟨inside, rfl⟩ := hconstant.exists_inside
    exact ⟨inside, hcs⟩

end Token

/-! ## Statements -/

namespace Statement

/-- Whatever the records of a statement need from the tables is there. -/
structure IsCovered (s : Statement) : Prop where
  bodies : ∃ bodies, s.bodies = .ok bodies ∧ ∀ b ∈ bodies, ∃ length, b.byteLength? = some length
  /-- The code of a form with two registers is a byte and has a length. -/
  registers : ∀ r1 r2, s.operands = .registers r1 r2 → ∃ code, s.mnemonic.code = some code ∧
    code.toNat + 4 < 256 ∧ Opcode.byteLength? (Opcode.registerForm code) = some 2

theorem code_add_lt {m : Mnemonic} (hm : m ∈ Mnemonic.table) {code : UInt8}
    (hshape : m.shape = .registerOrAddress) (hcode : m.code = some code) :
    code.toNat + 4 < 256 := by
  have hall : ∀ m ∈ Mnemonic.table, m.shape = .registerOrAddress →
      ∀ code ∈ m.code, code.toNat + 4 < 256 := by decide +kernel
  exact hall m hm hshape code hcode

theorem WellFormed.isCovered {s : Statement} (h : s.WellFormed) : s.IsCovered where
  bodies := by
    obtain ⟨bodies, hbodies, hall⟩ := exists_bodies h
    refine ⟨bodies, hbodies, fun b hb => ?_⟩
    exact ⟨_, Body.byteLength?_of_hasForm h.mnemonic (hall.form b hb)⟩
  registers := by
    intro r1 r2 hoperands
    have hshape : s.mnemonic.shape = .registerOrAddress := by
      have hoperands' := h.operands
      rw [hoperands] at hoperands'
      generalize s.mnemonic.shape = shape at hoperands'
      cases hoperands'
      rfl
    obtain ⟨code, hcode⟩ := exists_opcode h.mnemonic (by tauto)
    exact ⟨code, hcode, code_add_lt h.mnemonic hshape hcode,
      Mnemonic.byteLength?_registerForm h.mnemonic hcode hshape⟩

end Statement

/-! ## Records -/

/-- The record has a length and comes from one of the lines. -/
structure Record.IsGrounded (lines : List String) (r : Record) : Prop where
  length : ∃ length, r.body.byteLength? = some length
  line : r.line < lines.length

namespace LiteralPool

theorem line_of_mem_block {p : Occurrence × Nat} {r : Record} (h : r ∈ block p) :
    r.line = p.1.line := by
  rw [block, Operand.pooledData] at h
  split at h
  · cases h
  · rcases List.mem_cons.1 h with rfl | h
    · rfl
    · obtain ⟨word, -, rfl⟩ := List.mem_map.1 h
      rfl

theorem exists_line_of_mem_generated {rs : List Record} {r : Record}
    (h : r ∈ (ofRecords 0 rs).generated) : ∃ p ∈ rs, r.line = p.line := by
  rw [generated_eq] at h
  obtain ⟨⟨o, k⟩, ho, hr⟩ := List.mem_flatMap.1 h
  obtain ⟨p, span, hp, hline, -⟩ :=
    Occurrence.getElem?_occurrences (List.mem_zipIdx_iff_getElem?.1 ho)
  exact ⟨p, List.mem_of_getElem? hp, (line_of_mem_block hr).trans hline⟩

end LiteralPool

namespace Assembly

variable {gr8 scoping : Bool} {lines : List String} {reading : Statement.Reading} {r : Record}

theorem line_of_readLine {number : Nat} {line : String}
    (h : readLine gr8 number line = .ok reading) (hr : r ∈ reading.records) :
    r.line = number := by
  rw [readLine_eq, readNonblank] at h
  cases hscan : Token.scan gr8 number line with
  | error d =>
    rw [hscan] at h
    cases h
    cases hr
  | ok tokens =>
    rw [hscan] at h
    rcases Statement.read_cases (Token.spelled_of_scan hscan) h with
      ⟨-, rfl⟩ | ⟨d, -, rfl⟩ | ⟨-, s, rest, bodies, -, -, -, -, rfl⟩
    · cases hr
    · cases hr
    · exact (Statement.of_mem_recordsOf hr).2.2

theorem isGrounded_of_readLines (h : readLines gr8 lines = .ok reading)
    (hr : r ∈ reading.records) : r.IsGrounded lines := by
  obtain ⟨m, hm, -, hform⟩ := (isRead_of_readLines h r hr).wellFormed.form
  refine ⟨⟨_, Body.byteLength?_of_hasForm hm hform⟩, ?_⟩
  obtain ⟨readings, hreadings, rfl⟩ := Traversal.bind_pure_eq_ok.1 h
  obtain ⟨lineReading, hmem, hr⟩ := List.mem_flatMap.1 hr
  obtain ⟨p, hp, hread⟩ := Traversal.exists_of_mem_mapM hreadings hmem
  rw [line_of_readLine hread hr]
  simpa using List.snd_lt_of_mem_zipIdx hp

/-- Pooling, laying out and resolving keep the length and the line of a record. -/
theorem isGrounded_resolved {rs : List Record} (hrs : ∀ p ∈ rs, p.IsGrounded lines)
    (t : LabelTable) (hr : r ∈ (layout scoping rs).records) :
    (r.resolve .exact t).IsGrounded lines := by
  obtain ⟨i, p, hp, rfl⟩ := exists_placed hr
  obtain ⟨hlength, hline⟩ := hrs p (List.mem_of_getElem? hp)
  exact ⟨by simpa [Record.resolve, Record.mapOperands, placed, Record.pooled] using hlength, hline⟩

/-- The data of a literal comes from the line of the record with the literal. -/
theorem isGrounded_generated {rs : List Record} (hrs : ∀ p ∈ rs, p.IsGrounded lines)
    (hr : r ∈ (layout scoping rs).generated) : r.IsGrounded lines := by
  obtain ⟨value, -, hdata⟩ := exists_value_of_mem_generated hr
  have hline : r.line ∈ (LiteralPool.ofRecords 0 rs).generated.map (·.line) := by
    rw [← Layout.map_place (fun _ _ => rfl)
      (Layout.byteLength (LiteralPool.ofRecords 0 rs).records)]
    exact List.mem_map_of_mem hr
  obtain ⟨data, hmem, hline⟩ := List.mem_map.1 hline
  obtain ⟨p, hp, hline'⟩ := LiteralPool.exists_line_of_mem_generated hmem
  refine ⟨⟨2, by rw [hdata]; rfl⟩, ?_⟩
  rw [← hline, hline']
  exact (hrs p hp).line

theorem isGrounded_analyzeRecords (h : readLines gr8 lines = .ok reading)
    (hr : r ∈ (analyzeRecords scoping reading).records ++
      (analyzeRecords scoping reading).generated) : r.IsGrounded lines := by
  have hrs : ∀ p ∈ reading.records, p.IsGrounded lines := fun p hp => isGrounded_of_readLines h hp
  rcases List.mem_append.1 hr with hr | hr
  · rw [records_analyzeRecords] at hr
    obtain ⟨laidOut, hlaidOut, rfl⟩ := List.mem_map.1 hr
    exact isGrounded_resolved hrs _ hlaidOut
  · rw [generated_analyzeRecords] at hr
    exact isGrounded_generated hrs hr

end Assembly

/-! ## The listing -/

namespace Listing

variable {lines : List String} {r : Record}

theorem exists_recordRow? (h : r.line < lines.length) :
    ∃ row, recordRow? lines.toArray r = .ok row := by
  have hsource : ∃ source, sourceCell lines.toArray r = .ok source := by
    rw [sourceCell, List.getElem?_toArray, List.getElem?_eq_getElem h]
    split
    · exact ⟨_, rfl⟩
    · exact ⟨_, rfl⟩
  obtain ⟨source, hsource⟩ := hsource
  rw [recordRow?]
  split
  · exact ⟨_, rfl⟩
  · exact ⟨_, rfl⟩
  · rw [hsource]
    exact ⟨_, rfl⟩

theorem exists_text {c : Assembly.Compilation} (h : ∀ r ∈ c.records, r.line < lines.length) :
    ∃ listing, text c lines = .ok listing := by
  obtain ⟨rows, hrows⟩ := Traversal.exists_mapM fun r hr => exists_recordRow? (h r hr)
  rw [text, recordTable, hrows]
  exact ⟨_, rfl⟩

end Listing

/-! ## Source texts -/

namespace Assembly

/-- Nothing that scanning and reading a line rely on can fail. -/
structure IsSafeLine (gr8 : Bool) (number : Nat) (source : String) : Prop where
  /-- The line is cut only between characters. -/
  boundary : ∀ column rest, Token.Visits gr8 0 source.toList column rest →
    String.Pos.Raw.IsValid source ⟨column⟩
  tokens : ∀ tokens, Token.scan gr8 number source = .ok tokens → ∀ token ∈ tokens,
    token.IsCutFrom gr8 source ∧ token.IsReadable
  rejection : ∀ d, Token.scan gr8 number source = .error d →
    ∃ rest, Token.Visits gr8 0 source.toList d.location.span.start rest ∧
      Token.Lexeme.first? gr8 rest = none
  /-- The tables have whatever the statement of the line needs. -/
  statement : ∀ tokens s rest, Token.scan gr8 number source = .ok tokens →
    (Statement.Line.ofTokens number tokens).statement tokens = .ok (s, rest) → s.IsCovered
  reading : ∃ reading, readLine gr8 number source = .ok reading

/-- Nothing that assembling and listing a source text rely on can fail. -/
structure IsSafe (options : Options) (lines : List String) : Prop where
  line : ∀ number source, lines[number]? = some source → IsSafeLine options.gr8 number source
  analysis : ∃ a, analyze options lines = .ok a ∧
    ∀ r ∈ a.records ++ a.generated, r.IsGrounded lines
  compilation : ∀ fault, compile options lines ≠ .error (.fault fault)
  /-- Debug information and listings are made from these records. -/
  records : ∀ c, compile options lines = .ok c → ∀ r ∈ c.records, r.IsGrounded lines
  listing : ∀ c, compile options lines = .ok c → ∃ text, Listing.text c lines = .ok text

theorem isSafeLine (gr8 : Bool) (number : Nat) (source : String) :
    IsSafeLine gr8 number source where
  boundary := fun _ _ hvisits => hvisits.isValid
  tokens := by
    intro tokens hscan token htoken
    refine ⟨?_, (Token.spelled_of_scan hscan token htoken).isReadable⟩
    exact Token.isCutFrom_of_mem_scan (Token.scan_eq_ok_iff.1 hscan) htoken
  rejection := by
    intro d hscan
    obtain ⟨column, herror, rfl⟩ := Token.scan_eq_error_iff.1 hscan
    exact Token.exists_visits_of_error herror
  statement := by
    intro tokens s rest hscan hstatement
    have hspelled : Statement.AllSpelled gr8 tokens := Token.spelled_of_scan hscan
    have hbegin := Statement.atEnd_of_statement hspelled hstatement
    have hreads :=
      (Statement.Line.ofTokens number tokens).reads_statement hspelled hbegin
    rw [hstatement] at hreads
    exact hreads.1.isCovered
  reading := by
    obtain ⟨reading, hread, -⟩ := exists_readLine gr8 number source
    exact ⟨reading, hread⟩

theorem records_of_compile {a : Analysis} {c : Compilation} (h : a.compile = .ok c) :
    c.records = a.records ++ a.generated := by
  obtain ⟨words, -, rfl⟩ := Traversal.bind_pure_eq_ok.1 h
  rfl

/-- No source text leads to a fault, whatever the options are. -/
theorem isSafe (options : Options) (lines : List String) : IsSafe options lines := by
  obtain ⟨reading, hread, -⟩ := exists_readLines options.gr8 lines
  have hanalyze := analyze_of_readLines hread
  have hrecords : ∀ c, compile options lines = .ok c → ∀ r ∈ c.records, r.IsGrounded lines := by
    intro c hc r hr
    rw [records_of_compile ((compile_eq_ok_iff hread).1 hc)] at hr
    exact isGrounded_analyzeRecords hread hr
  refine ⟨fun number source _ => isSafeLine options.gr8 number source, ?_, ?_, hrecords, ?_⟩
  · exact ⟨_, hanalyze, fun r hr => isGrounded_analyzeRecords hread hr⟩
  · intro fault h
    rw [compile, hanalyze] at h
    dsimp only at h
    split at h
    · cases h
    · cases h
  · exact fun c hc => Listing.exists_text fun r hr => (hrecords c hc r hr).line

/-- A token with a name that is not in the table was not cut out of a line. -/
example : Statement.read 0 [.ofText .mnemonic 0 0 "LOAD".toList, .atLineEnd 0 4] =
    .error (.unknownMnemonic "LOAD") := by decide +kernel

end Assembly

end Comet
