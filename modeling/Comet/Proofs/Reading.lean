import Comet.Proofs.Contract
import Comet.Assembly

/-!
# What reading a line gives

The contract of reading says that a line is a well-formed statement or has a problem.
A well-formed statement has records, and they are well formed as well.

The main result is `exists_readLines`: every source text can be read, and all of
its records are well formed.
-/

namespace Comet.Statement

/-- Only directives have no code, and these shapes belong to no directive. -/
theorem exists_opcode {m : Mnemonic} (hm : m ∈ Mnemonic.table)
    (hshape : m.shape = .register ∨ m.shape = .address ∨ m.shape = .registerAddress ∨
      m.shape = .registerOrAddress ∨ m.shape = .buffer) : ∃ code, m.code = some code := by
  have hall : ∀ m ∈ Mnemonic.table, (m.shape = .register ∨ m.shape = .address ∨
      m.shape = .registerAddress ∨ m.shape = .registerOrAddress ∨ m.shape = .buffer) →
      m.code.isSome = true := by decide
  exact Option.isSome_iff_exists.1 (hall m hm hshape)

/-- What the records of a statement do fits the row of its mnemonic. -/
structure AreBodies (m : Mnemonic) (bodies : List Body) : Prop where
  nonempty : bodies ≠ []
  form : ∀ b ∈ bodies, m.HasForm b
  operands : ∀ b ∈ bodies, ∀ operand ∈ b.operands, operand.WellFormed
  entry : ∀ target, Body.start (some target) ∈ bodies →
    ∃ name span, target = .symbol name span ∧ IsLabelName name

theorem AreBodies.singleton {m : Mnemonic} {b : Body} (form : m.HasForm b)
    (operands : ∀ operand ∈ b.operands, operand.WellFormed)
    (hstart : ∀ target, b ≠ .start (some target)) : AreBodies m [b] where
  nonempty := by simp
  form := by simpa using form
  operands := by simpa using operands
  entry := by
    intro target htarget
    exact absurd (List.mem_singleton.1 htarget).symm (hstart target)

theorem AreBodies.ofOperation {m : Mnemonic} {code : UInt8} {r1 r2 : Option Register}
    {adr : Option Operand} (form : m.HasForm (.operation code r1 r2 adr))
    (hadr : ∀ operand ∈ adr, operand.WellFormed) : AreBodies m [.operation code r1 r2 adr] := by
  refine .singleton form ?_ (by simp)
  cases adr with
  | none => simp [Body.operands]
  | some adr => simpa [Body.operands] using hadr adr rfl

theorem AreBodies.fillers {m : Mnemonic} (hshape : m.shape = .wordCount) (count : Nat) :
    AreBodies m (List.replicate (count + 1) (.operation Opcode.nop none none none)) where
  nonempty := by simp
  form := by
    intro b hb
    rw [List.eq_of_mem_replicate hb]
    exact .filler hshape
  operands := by
    intro b hb
    rw [List.eq_of_mem_replicate hb]
    simp [Body.operands]
  entry := by
    intro target htarget
    cases List.eq_of_mem_replicate htarget

theorem AreBodies.constants {m : Mnemonic} (hshape : m.shape = .constants)
    {words : List Operand} (h : Line.AreConstants words) : AreBodies m (words.map .data) where
  nonempty := by simpa using h.1
  form := by
    intro b hb
    obtain ⟨word, -, rfl⟩ := List.mem_map.1 hb
    exact .data hshape
  operands := by
    intro b hb
    obtain ⟨word, hword, rfl⟩ := List.mem_map.1 hb
    simpa [Body.operands] using h.2 word hword
  entry := by
    intro target htarget
    obtain ⟨word, -, hword⟩ := List.mem_map.1 htarget
    cases hword

theorem opcode_eq {m : Mnemonic} {code : UInt8} (h : m.code = some code) :
    opcode m = .ok code := by
  rw [opcode, h]

/-- A well-formed statement denotes at least one body. -/
theorem exists_bodies {s : Statement} (h : s.WellFormed) :
    ∃ bodies, s.bodies = .ok bodies ∧ AreBodies s.mnemonic bodies := by
  obtain ⟨label, m, operands⟩ := s
  obtain ⟨hm, hoperands, -⟩ := h
  dsimp only at hm hoperands ⊢
  generalize hshape : m.shape = shape at hoperands
  cases hoperands with
  | none =>
    cases hcode : m.code with
    | none =>
      refine ⟨[.finish], by simp only [bodies, hcode], ?_⟩
      exact .singleton (.finish hshape hcode) (by simp [Body.operands]) (by simp)
    | some code =>
      refine ⟨[.operation code none none none], by simp only [bodies, hcode], ?_⟩
      exact .ofOperation (.bare hshape hcode) (by simp)
  | @register r =>
    obtain ⟨code, hcode⟩ := exists_opcode hm (.inl hshape)
    refine ⟨[.operation code (some r) none none], by simp only [bodies, opcode_eq hcode]; rfl, ?_⟩
    exact .ofOperation (.register hshape hcode) (by simp)
  | @address adr x adr_wf index =>
    obtain ⟨code, hcode⟩ := exists_opcode hm (.inr (.inl hshape))
    refine ⟨[.operation code none x (some adr)], by simp only [bodies, opcode_eq hcode]; rfl, ?_⟩
    exact .ofOperation (.address hshape hcode index) (by simpa using adr_wf)
  | @registerAddress _ r adr x shape_eq adr_wf index =>
    have hshape' : m.shape = .registerAddress ∨ m.shape = .registerOrAddress := hshape ▸ shape_eq
    obtain ⟨code, hcode⟩ := exists_opcode hm (by tauto)
    refine ⟨[.operation code (some r) x (some adr)],
      by simp only [bodies, opcode_eq hcode]; rfl, ?_⟩
    exact .ofOperation (.registerAddress hshape' hcode index) (by simpa using adr_wf)
  | @registers r1 r2 =>
    obtain ⟨code, hcode⟩ := exists_opcode hm (by tauto)
    refine ⟨[.operation (Opcode.registerForm code) (some r1) (some r2) none],
      by simp only [bodies, opcode_eq hcode]; rfl, ?_⟩
    exact .ofOperation (.registers hshape hcode) (by simp)
  | @buffer buffer length buffer_wf length_wf =>
    obtain ⟨code, hcode⟩ := exists_opcode hm (by tauto)
    refine ⟨[.transfer code buffer length], by simp only [bodies, opcode_eq hcode]; rfl, ?_⟩
    exact .singleton (.transfer hshape hcode)
      (by simpa [Body.operands] using ⟨buffer_wf, length_wf⟩) (by simp)
  | @entry target target_wf =>
    refine ⟨[.start target], rfl, ⟨by simp, by simpa using .start hshape,
      by simp [Body.operands], ?_⟩⟩
    intro operand hoperand
    cases List.mem_singleton.1 hoperand
    exact target_wf operand rfl
  | @wordCount count =>
    cases count with
    | zero =>
      refine ⟨[.labelOnly], rfl, ?_⟩
      exact .singleton (.labelOnly hshape) (by simp [Body.operands]) (by simp)
    | succ count => exact ⟨_, rfl, .fillers hshape count⟩
  | constants words_wf => exact ⟨_, rfl, .constants hshape words_wf⟩

theorem make_eq_ok {m : Mnemonic} (hm : m ∈ Mnemonic.table) {b : Body} (hform : m.HasForm b)
    (name : String) (label : Option String) (line : Nat) :
    Record.make name b label line = .ok { label, mnemonic := name, body := b, line } := by
  have hlength := Body.byteLength?_of_hasForm hm hform
  cases b with
  | operation code r1 r2 adr =>
    exact if_pos (Option.isSome_iff_exists.2 ⟨_, hlength⟩)
  | transfer code buffer length =>
    exact if_pos (Option.isSome_iff_exists.2 ⟨_, hlength⟩)
  | _ => rfl

theorem wellFormed_record {m : Mnemonic} (hm : m ∈ Mnemonic.table) {bs : List Body}
    (hbs : AreBodies m bs) {r : Record} (hbody : r.body ∈ bs) (hmnemonic : r.mnemonic = m.name)
    (hlabel : ∀ name ∈ r.label, IsLabelName name) : r.WellFormed where
  form := ⟨m, hm, hmnemonic.symm, hbs.form r.body hbody⟩
  operands := hbs.operands r.body hbody
  label := hlabel
  entry := fun target htarget => hbs.entry target (htarget ▸ hbody)

/-- The records of a well-formed statement are well formed, and there is at least
one of them. -/
theorem exists_records {s : Statement} (h : s.WellFormed) (line : Nat) (tokens : List Token) :
    ∃ rs, s.records line tokens = .ok rs ∧ rs ≠ [] ∧ ∀ r ∈ rs, r.WellFormed := by
  obtain ⟨bs, hbs, hbodies⟩ := exists_bodies h
  cases bs with
  | nil => exact absurd rfl hbodies.nonempty
  | cons b rest =>
    have hmake (label : Option String) (b' : Body) (hb' : b' ∈ b :: rest) :=
      make_eq_ok h.mnemonic (hbodies.form b' hb') s.mnemonic.name label line
    have hrest : ∀ b' ∈ rest, ∃ r, Record.make s.mnemonic.name b' none line = .ok r ∧
        (r.body ∈ b :: rest ∧ r.mnemonic = s.mnemonic.name ∧ r.label = none) :=
      fun b' hb' => ⟨_, hmake none b' (.tail _ hb'), .tail _ hb', rfl, rfl⟩
    obtain ⟨others, hothers, hall⟩ := Traversal.exists_mapM_eq_ok hrest
    refine ⟨_, by simp only [records, hbs, hmake s.label b (.head _), hothers, bind,
      Except.bind, pure, Except.pure]; rfl, by simp, ?_⟩
    intro r hr
    rcases List.mem_cons.1 hr with rfl | hr
    · exact wellFormed_record h.mnemonic hbodies (.head _) rfl h.label
    · obtain ⟨r', hr', rfl⟩ := List.mem_map.1 hr
      obtain ⟨hbody, hmnemonic, hnone⟩ := hall r' hr'
      refine wellFormed_record h.mnemonic hbodies hbody hmnemonic ?_
      simp [hnone]

theorem exists_read (number : Nat) {gr8 : Bool} {tokens : List Token}
    (h : AllSpelled gr8 tokens) :
    ∃ reading, read number tokens = .ok reading ∧ ∀ r ∈ reading.records, r.WellFormed := by
  rw [read]
  split
  · exact ⟨_, rfl, by simp⟩
  rename_i hend
  have hreads := (Line.ofTokens number tokens).reads_statement h (Bool.eq_false_iff.2 hend)
  split
  · exact ⟨_, rfl, by simp⟩
  · rename_i hfault
    rw [hfault] at hreads
    exact hreads.elim
  · rename_i s rest hs
    rw [hs] at hreads
    obtain ⟨rs, hrs, -, hwf⟩ := exists_records hreads.1 number tokens
    exact ⟨⟨rs, _⟩, by rw [hrs]; rfl, hwf⟩

end Comet.Statement

namespace Comet.Assembly

theorem readNonblank_of_isBlank (gr8 : Bool) (number : Nat) {line : String}
    (h : ∀ c ∈ line.toList, Text.isBlank c = true) :
    readNonblank gr8 number line = .ok ⟨[], []⟩ := by
  rw [readNonblank, Token.scan]
  cases hcs : line.toList with
  | nil =>
    rw [Token.scanFrom]
    rfl
  | cons c cs =>
    rw [hcs] at h
    have hblank : Text.isBlank c = true := h c (.head _)
    have hupper : c.isUpper = false := by
      rw [← Bool.not_eq_true]
      intro hupper
      rw [Text.isBlank_eq_false_of_isAlphanum (.inl hupper)] at hblank
      cases hblank
    have hrest : cs.dropWhile Text.isBlank = [] :=
      List.dropWhile_eq_nil_iff.2 fun d hd => h d (.tail _ hd)
    have hfirst : Token.Lexeme.first? gr8 (c :: cs) =
        some ⟨.space, c :: cs.takeWhile Text.isBlank, []⟩ := by
      simp [Token.Lexeme.first?, hupper, hblank, Token.Lexeme.run, hrest]
    rw [Token.scanFrom_of_first? hfirst, Token.scanFrom]
    rfl

/-- Blank lines need not be passed over: there is nothing to read in them. -/
theorem readLine_eq (gr8 : Bool) (number : Nat) (line : String) :
    readLine gr8 number line = readNonblank gr8 number line := by
  rw [readLine]
  split
  · rename_i hblank
    exact (readNonblank_of_isBlank gr8 number (List.all_eq_true.1 hblank)).symm
  · rfl

theorem exists_readLine (gr8 : Bool) (number : Nat) (line : String) :
    ∃ reading, readLine gr8 number line = .ok reading ∧ ∀ r ∈ reading.records, r.WellFormed := by
  rw [readLine_eq, readNonblank]
  cases hscan : Token.scan gr8 number line with
  | error d => exact ⟨_, rfl, by simp⟩
  | ok tokens => exact Statement.exists_read number (Token.spelled_of_scan hscan)

/-- The record is one of those that some line gives. -/
def IsRead (r : Record) : Prop :=
  ∃ gr8 number line reading, readLine gr8 number line = .ok reading ∧ r ∈ reading.records

theorem IsRead.wellFormed {r : Record} (h : IsRead r) : r.WellFormed := by
  obtain ⟨gr8, number, line, reading, hread, hr⟩ := h
  obtain ⟨reading', hread', hall⟩ := exists_readLine gr8 number line
  cases hread.symm.trans hread'
  exact hall r hr

/-- Every source text can be read, and its records are well formed. -/
theorem exists_readLines (gr8 : Bool) (lines : List String) :
    ∃ reading, readLines gr8 lines = .ok reading ∧ ∀ r ∈ reading.records, r.WellFormed := by
  have hlines : ∀ p ∈ lines.zipIdx, ∃ reading, readLine gr8 p.2 p.1 = .ok reading ∧
      ∀ r ∈ reading.records, r.WellFormed := fun p _ => exists_readLine gr8 p.2 p.1
  obtain ⟨readings, hreadings, hall⟩ := Traversal.exists_mapM_eq_ok hlines
  refine ⟨⟨readings.flatMap (·.records), readings.flatMap (·.diagnostics)⟩, ?_, ?_⟩
  · rw [readLines]
    exact Traversal.bind_eq_ok.2 ⟨readings, hreadings, rfl⟩
  · intro r hr
    obtain ⟨reading, hreading, hr⟩ := List.mem_flatMap.1 hr
    exact hall reading hreading r hr

/-- A source text is read line by line. -/
theorem readLines_of_forall₂ {gr8 : Bool} {lines : List String} {readings : List Statement.Reading}
    (h : List.Forall₂ (fun p reading => readLine gr8 p.2 p.1 = .ok reading) lines.zipIdx readings) :
    readLines gr8 lines =
      .ok ⟨readings.flatMap (·.records), readings.flatMap (·.diagnostics)⟩ := by
  have hreadings := Traversal.mapM_eq_ok_iff.2 h
  rw [readLines, hreadings]
  rfl

theorem forall₂_of_readLines {gr8 : Bool} {lines : List String} {reading : Statement.Reading}
    (h : readLines gr8 lines = .ok reading) :
    ∃ readings,
      List.Forall₂ (fun p reading => readLine gr8 p.2 p.1 = .ok reading) lines.zipIdx readings ∧
      reading = ⟨readings.flatMap (·.records), readings.flatMap (·.diagnostics)⟩ := by
  obtain ⟨readings, hreadings, rfl⟩ := Traversal.bind_pure_eq_ok.1 h
  exact ⟨readings, Traversal.mapM_eq_ok_iff.1 hreadings, rfl⟩

theorem isRead_of_readLines {gr8 : Bool} {lines : List String} {reading : Statement.Reading}
    (h : readLines gr8 lines = .ok reading) : ∀ r ∈ reading.records, IsRead r := by
  rw [readLines] at h
  obtain ⟨readings, hreadings, h⟩ := Traversal.bind_eq_ok.1 h
  cases h
  intro r hr
  obtain ⟨lineReading, hmem, hr⟩ := List.mem_flatMap.1 hr
  obtain ⟨p, -, hread⟩ := Traversal.exists_of_mem_mapM hreadings hmem
  exact ⟨gr8, p.2, p.1, lineReading, hread, hr⟩

end Comet.Assembly
