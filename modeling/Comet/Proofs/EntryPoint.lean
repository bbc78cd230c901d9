import Comet.Proofs.LineGrammar
import Comet.Proofs.Validity

/-!
# The entry of a program

A program begins at what its first label denotes. The first label always denotes a record
if the program has no errors, but nothing has checked the address of that record: names
are checked where they are emitted, and the entry of a subroutine is not emitted. So a
program without errors has an entry exactly if that address fits in a word, and only then
it has an image (`entryPoint_of_errorFree`).

A program whose entry stands behind more words than a word can count has no errors and
no image.
-/

namespace Comet

namespace Image

theorem entryPoint_of_address? {records : List Record} {labels : LabelTable} {name : String}
    {address : Nat} (hname : records.head?.bind (·.label) = some name)
    (haddress : labels.address? name 1 = some address) :
    entryPoint records labels = if address ≤ 65535 then .ok (UInt16.ofNat address)
      else .error (.noEntryPoint name) := by
  simp only [entryPoint, hname, haddress, Nat.lt_succ_iff]

end Image

namespace Assembly

variable {scoping : Bool} {rs : List Record}

/-- The record at which the program begins, if it begins with a label, has an address that
fits in a word. -/
def EntryFits (scoping : Bool) (rs : List Record) : Prop :=
  ∀ p name k, rs[0]? = some p → p.label = some name → Denotes scoping rs name 1 k →
    addressAt rs k ≤ 65535

/-- The records of a program with their names resolved. -/
def resolvedRecords (scoping : Bool) (rs : List Record) : List Record :=
  (layout scoping rs).records.map (Record.resolve .exact (labels scoping rs))

theorem label_head?_resolvedRecords (scoping : Bool) (rs : List Record) :
    (resolvedRecords scoping rs).head?.bind (·.label) = rs.head?.bind (·.label) := by
  rw [List.head?_eq_getElem?, resolvedRecords, List.getElem?_map, getElem?_layout,
    List.head?_eq_getElem?]
  cases rs[0]? <;> rfl

/-- The entry of a program that begins with a label. -/
theorem WellDeclared.entryPoint_of_denotes (h : WellDeclared scoping rs)
    (hrs : ∀ r ∈ rs, r.WellFormed) {p : Record} {name : String} {k : Nat} (hp : rs[0]? = some p)
    (hname : p.label = some name) (hk : Denotes scoping rs name 1 k) :
    Image.entryPoint (resolvedRecords scoping rs) (labels scoping rs) =
      if addressAt rs k ≤ 65535 then .ok (UInt16.ofNat (addressAt rs k))
      else .error (.noEntryPoint name) := by
  apply Image.entryPoint_of_address?
  · rw [label_head?_resolvedRecords, List.head?_eq_getElem?, hp]
    exact hname
  · exact h.address?_eq_addressAt hrs hk

/-- The first label of a program denotes a record in the first scope. -/
theorem WellDeclared.exists_denotes_first (h : WellDeclared scoping rs)
    (hrs : ∀ r ∈ rs, r.WellFormed) {p : Record} {name : String} (hp : rs[0]? = some p)
    (hname : p.label = some name) : ∃ k, Denotes scoping rs name 1 k := by
  apply h.exists_denotes hrs hp hname
  right
  simp [scopeAt]

/-- There is an entry exactly if its address fits in a word. -/
theorem WellDeclared.entryPoint_eq_ok_iff (h : WellDeclared scoping rs)
    (hrs : ∀ r ∈ rs, r.WellFormed) :
    (∃ entry, Image.entryPoint (resolvedRecords scoping rs) (labels scoping rs) = .ok entry) ↔
      EntryFits scoping rs := by
  cases hlabel : rs.head?.bind (·.label) with
  | none =>
    have hentry : Image.entryPoint (resolvedRecords scoping rs) (labels scoping rs) = .ok 0 :=
      Image.entryPoint_of_unlabelled ((label_head?_resolvedRecords scoping rs).trans hlabel)
    refine iff_of_true ⟨0, hentry⟩ fun p name k hp hname _ => ?_
    rw [List.head?_eq_getElem?, hp, Option.bind_some, hname] at hlabel
    cases hlabel
  | some name =>
    obtain ⟨p, hp, hname⟩ := Option.bind_eq_some_iff.1 hlabel
    rw [List.head?_eq_getElem?] at hp
    obtain ⟨k, hk⟩ := h.exists_denotes_first hrs hp hname
    rw [h.entryPoint_of_denotes hrs hp hname hk]
    constructor
    · rintro ⟨entry, hentry⟩ p' name' k' hp' hname' hk'
      cases hp.symm.trans hp'
      cases hname.symm.trans hname'
      cases h.denotes_unique hk hk'
      split at hentry
      · assumption
      · cases hentry
    · intro hfits
      rw [if_pos (hfits p name k hp hname hk)]
      exact ⟨_, rfl⟩

/-- Without errors, assembling a program fails exactly if it has no entry. -/
theorem compile_of_errorFree {options : Options} {lines : List String}
    {reading : Statement.Reading} (hread : readLines options.gr8 lines = .ok reading)
    (hrs : ∀ r ∈ reading.records, r.WellFormed)
    (herrors : Diagnostic.hasErrors (analyzeRecords options.scoping reading).diagnostics = false) :
    match Image.entryPoint (resolvedRecords options.scoping reading.records)
      (labels options.scoping reading.records) with
    | .ok _ => ∃ c w, compile options lines = .ok c ∧ c.words = some w
    | .error e => compile options lines = .error (.encoding e) := by
  have hanalyze := analyze_of_readLines hread
  have hwords : ∀ r ∈ (analyzeRecords options.scoping reading).records ++
      (analyzeRecords options.scoping reading).generated, ∃ ws, r.words = .ok ws :=
    fun r hr => Record.exists_words_of_isWord (isWord_of_hasErrors_eq_false hrs herrors hr)
  obtain ⟨ws, hcode⟩ := Image.exists_code hwords
  have hrecords : (analyzeRecords options.scoping reading).records =
      resolvedRecords options.scoping reading.records := rfl
  have hlabels := labels_analyzeRecords options.scoping reading
  cases hentry : Image.entryPoint (resolvedRecords options.scoping reading.records)
      (labels options.scoping reading.records) with
  | ok entry =>
    have himage := Image.ofRecords_eq_ok.2 ⟨entry, _, hlabels ▸ hrecords ▸ hentry, hcode, rfl⟩
    simp only [compile, hanalyze, Analysis.compile, Analysis.image?, herrors, himage, bind,
      Except.bind, pure, Except.pure, Bool.false_eq_true, if_false]
    exact ⟨_, _, rfl, rfl⟩
  | error e =>
    have himage : Image.ofRecords (analyzeRecords options.scoping reading).records
        (analyzeRecords options.scoping reading).generated
        (analyzeRecords options.scoping reading).labels = .error e := by
      rw [Image.ofRecords, hlabels, hrecords, hentry]
      rfl
    simp only [compile, hanalyze, Analysis.compile, Analysis.image?, herrors, himage, bind,
      Except.bind, Bool.false_eq_true, if_false]

/-- Without errors, a program has an entry and an image exactly if the address of the entry
fits in a word. Otherwise assembling it fails, although nothing was reported. -/
theorem entryPoint_of_errorFree (options : Options) (lines : List String) :
    ∃ a reading, analyze options lines = .ok a ∧ readLines options.gr8 lines = .ok reading ∧
      (Diagnostic.hasErrors a.diagnostics = false →
        ((∃ entry, Image.entryPoint a.records a.labels = .ok entry) ↔
          EntryFits options.scoping reading.records) ∧
        ((∃ c w, compile options lines = .ok c ∧ c.words = some w) ↔
          EntryFits options.scoping reading.records) ∧
        (¬ EntryFits options.scoping reading.records →
          ∃ name, compile options lines = .error (.encoding (.noEntryPoint name)))) := by
  obtain ⟨reading, hread, hrs⟩ := exists_readLines options.gr8 lines
  refine ⟨_, reading, analyze_of_readLines hread, hread, fun herrors => ?_⟩
  have hfits := (errorFree_of_analyzeRecords herrors).entryPoint_eq_ok_iff hrs
  have hcompile := compile_of_errorFree hread hrs herrors
  refine ⟨hfits, ?_⟩
  rw [← hfits]
  cases hentry : Image.entryPoint (resolvedRecords options.scoping reading.records)
      (labels options.scoping reading.records) with
  | ok entry =>
    rw [hentry] at hcompile
    exact ⟨iff_of_true hcompile ⟨entry, rfl⟩, fun hnone => absurd ⟨entry, rfl⟩ hnone⟩
  | error e =>
    rw [hentry] at hcompile
    obtain ⟨name, rfl⟩ := Image.entryPoint_eq_error hentry
    refine ⟨iff_of_false ?_ (by simp), fun _ => ⟨name, hcompile⟩⟩
    rintro ⟨c, w, hc, -⟩
    rw [hcompile] at hc
    cases hc

/-- The first subroutine of this program names its entry. -/
theorem entryPoint_twoSubroutines :
    ∃ a reading, analyze { scoping := true } twoSubroutines = .ok a ∧
      readLines false twoSubroutines = .ok reading ∧
      Diagnostic.hasErrors a.diagnostics = false ∧ EntryFits true reading.records ∧
      ∃ entry, Image.entryPoint a.records a.labels = .ok entry := by
  obtain ⟨a, reading, ha, hread, hentry⟩ :=
    entryPoint_of_errorFree { scoping := true } twoSubroutines
  obtain ⟨c, hc, hw⟩ := exists_compile_twoSubroutines
  have herrors : Diagnostic.hasErrors a.diagnostics = false := by
    cases ha.symm.trans (analyze_of_readLines hread)
    exact (compile_eq_ok hread hc hw).1
  obtain ⟨hfits, hcompile, -⟩ := hentry herrors
  have hfit := hcompile.1 ⟨c, _, hc, hw⟩
  exact ⟨a, reading, ha, hread, herrors, hfit, hfits.2 hfit⟩

/-! ## Entries behind storage -/

/-- A subroutine whose entry stands behind storage of its own. -/
structure BeginsBehind (name target : String) (start entry finish : Record)
    (storage : List Record) : Prop where
  start_label : start.label = some name
  start_body : ∃ span, start.body = .start (some (.symbol target span))
  storage_filler : ∀ r ∈ storage, r.label = none ∧ r.body = .operation Opcode.nop none none none
  entry_label : entry.label = some target
  entry_body : ∃ code, entry.body = .operation code none none none
  finish_label : finish.label = none
  finish_body : finish.body = .finish

namespace BeginsBehind

variable {name target : String} {start entry finish : Record} {storage : List Record}
  (h : BeginsBehind name target start entry finish storage)
include h

theorem declaration_start : start.declaration = .redirection target :=
  Record.declaration_eq_redirection.2 h.start_body

theorem declaration_entry : entry.declaration = .inScope := by
  obtain ⟨code, hbody⟩ := h.entry_body
  rw [Record.declaration, hbody]

/-- All records but the start and its entry are without labels. -/
theorem getElem?_cases {i : Nat} {r : Record}
    (hr : (start :: (storage ++ [entry, finish]))[i]? = some r) :
    (i = 0 ∧ r = start) ∨ (i = storage.length + 1 ∧ r = entry) ∨
      (r.label = none ∧ r.declaration = .inScope) := by
  cases i with
  | zero =>
    cases hr
    exact .inl ⟨rfl, rfl⟩
  | succ i =>
    rw [List.getElem?_cons_succ, List.getElem?_append] at hr
    split at hr
    · obtain ⟨hlabel, hbody⟩ := h.storage_filler r (List.mem_of_getElem? hr)
      exact .inr (.inr ⟨hlabel, by rw [Record.declaration, hbody]⟩)
    · rename_i hle
      obtain ⟨j, rfl⟩ := Nat.exists_eq_add_of_le (Nat.le_of_not_lt hle)
      rw [Nat.add_sub_cancel_left] at hr
      -- behind the storage stand the entry and the end, and nothing else
      cases j with
      | zero =>
        cases hr
        exact .inr (.inl ⟨rfl, rfl⟩)
      | succ j =>
        have hmem : r ∈ [finish] := List.mem_of_getElem? hr
        cases List.mem_singleton.1 hmem
        exact .inr (.inr ⟨h.finish_label, by rw [Record.declaration, h.finish_body]⟩)

theorem declaresAt_cases {i : Nat} {label : String} {d : Declaration}
    (hi : DeclaresAt (start :: (storage ++ [entry, finish])) i label d) :
    (i = 0 ∧ label = name) ∨ (i = storage.length + 1 ∧ label = target) := by
  obtain ⟨r, hr, hlabel, -⟩ := hi
  rcases h.getElem?_cases hr with ⟨hi, rfl⟩ | ⟨hi, rfl⟩ | ⟨hnone, -⟩
  · exact .inl ⟨hi, Option.some.inj (hlabel.symm.trans h.start_label)⟩
  · exact .inr ⟨hi, Option.some.inj (hlabel.symm.trans h.entry_label)⟩
  · rw [hnone] at hlabel
    cases hlabel

theorem declaresAt_entry : DeclaresAt (start :: (storage ++ [entry, finish]))
    (storage.length + 1) target .inScope := by
  refine ⟨entry, ?_, h.entry_label, h.declaration_entry⟩
  rw [List.getElem?_cons_succ, List.getElem?_append_right (Nat.le_refl _), Nat.sub_self]
  rfl

theorem wellDeclared (hne : name ≠ target) :
    WellDeclared false (start :: (storage ++ [entry, finish])) := by
  apply wellDeclared_of_unique
  · intro i j label d d' hi hj _
    rcases h.declaresAt_cases hi with ⟨rfl, rfl⟩ | ⟨rfl, rfl⟩
    · rcases h.declaresAt_cases hj with ⟨rfl, -⟩ | ⟨-, heq⟩
      · rfl
      · exact absurd heq hne
    · rcases h.declaresAt_cases hj with ⟨-, heq⟩ | ⟨rfl, -⟩
      · exact absurd heq.symm hne
      · rfl
  · intro i r target' hr hd
    rcases h.getElem?_cases hr with ⟨-, rfl⟩ | ⟨-, rfl⟩ | ⟨-, hlocal⟩
    · cases h.declaration_start.symm.trans hd
      exact ⟨_, h.declaresAt_entry, rfl⟩
    · cases h.declaration_entry.symm.trans hd
    · cases hlocal.symm.trans hd

theorem operands_eq_nil {r : Record} (hr : r ∈ start :: (storage ++ [entry, finish])) :
    r.operands = [] := by
  obtain ⟨span, hstart⟩ := h.start_body
  obtain ⟨code, hentry⟩ := h.entry_body
  simp only [List.mem_cons, List.mem_append, List.not_mem_nil, or_false] at hr
  rcases hr with rfl | hr | rfl | rfl
  · rw [Record.operands, hstart]
    rfl
  · rw [Record.operands, (h.storage_filler r hr).2]
    rfl
  · rw [Record.operands, hentry]
    rfl
  · rw [Record.operands, h.finish_body]
    rfl

theorem occurrences_eq_nil : occurrences (start :: (storage ++ [entry, finish])) = [] := by
  refine List.eq_nil_iff_forall_not_mem.2 fun o ho => ?_
  obtain ⟨k, hk⟩ := List.mem_iff_getElem?.1 ho
  obtain ⟨r, span, hr, -, hoperand, -⟩ := Occurrence.getElem?_occurrences hk
  rw [h.operands_eq_nil (List.mem_of_getElem? hr)] at hoperand
  cases hoperand

theorem errorFree (hne : name ≠ target) :
    ErrorFree false (start :: (storage ++ [entry, finish])) := by
  refine ⟨h.wellDeclared hne, fun r hr operand hoperand => ?_⟩
  obtain ⟨i, p, hp, rfl⟩ := exists_placed hr
  rcases mem_operands_placed hp hoperand with hsource | ⟨k, o, -, ho, -⟩
  · rw [h.operands_eq_nil (List.mem_of_getElem? hp)] at hsource
    cases hsource
  · rw [h.occurrences_eq_nil] at ho
    cases ho

/-- Nothing is wrong with such a subroutine, however large its storage is. -/
theorem hasErrors_eq_false (hne : name ≠ target) (hname : name.length ≤ 8)
    (htarget : target.length ≤ 8)
    (hrs : ∀ r ∈ start :: (storage ++ [entry, finish]), r.WellFormed) :
    Diagnostic.hasErrors (analyzeRecords false
      ⟨start :: (storage ++ [entry, finish]), []⟩).diagnostics = false := by
  refine hasErrors_analyzeRecords.2 ⟨rfl, h.errorFree hne, List.forall_mem_append.2 ⟨?_, ?_⟩⟩
  · refine check_records_iff.2 fun r hr label hlabel => ?_
    obtain ⟨i, hi⟩ := List.mem_iff_getElem?.1 hr
    rcases h.declaresAt_cases ⟨r, hi, hlabel, rfl⟩ with ⟨-, rfl⟩ | ⟨-, rfl⟩
    · exact hname
    · exact htarget
  · intro g hg
    rw [generated_analyzeRecords] at hg
    refine check_generated hrs (fun k o ho => ?_) hg
    rw [h.occurrences_eq_nil] at ho
    cases ho

theorem denotes_entry : Denotes false (start :: (storage ++ [entry, finish])) name 1
    (storage.length + 1) := by
  have hstart : DeclaresAt (start :: (storage ++ [entry, finish])) 0 name (.redirection target) :=
    ⟨start, rfl, h.start_label, h.declaration_start⟩
  exact .redirected hstart h.declaresAt_entry rfl

/-- The address of the entry is the size of the storage. -/
theorem addressAt_entry :
    addressAt (start :: (storage ++ [entry, finish])) (storage.length + 1) = storage.length := by
  have hstart : start.byteLength = 0 := by
    obtain ⟨span, hbody⟩ := h.start_body
    rw [Record.byteLength, hbody]
    rfl
  have hstorage : storage.map Record.byteLength = List.replicate storage.length 2 := by
    refine List.eq_replicate_iff.2 ⟨List.length_map _, fun n hn => ?_⟩
    obtain ⟨r, hr, rfl⟩ := List.mem_map.1 hn
    rw [Record.byteLength, (h.storage_filler r hr).2]
    rfl
  rw [addressAt, List.take_succ_cons, List.take_left, List.map_cons, List.sum_cons, hstart,
    hstorage, List.sum_replicate_nat]
  omega

/-- If the storage has more words than a word can count, the subroutine has no image. -/
theorem no_entryPoint (hne : name ≠ target) (hname : name.length ≤ 8)
    (htarget : target.length ≤ 8) {lines : List String}
    (hread : readLines false lines = .ok ⟨start :: (storage ++ [entry, finish]), []⟩)
    (hlarge : 65535 < storage.length) :
    ∃ a, analyze {} lines = .ok a ∧ Diagnostic.hasErrors a.diagnostics = false ∧
      Image.entryPoint a.records a.labels = .error (.noEntryPoint name) ∧
      compile {} lines = .error (.encoding (.noEntryPoint name)) := by
  obtain ⟨reading, hread', hrs⟩ := exists_readLines false lines
  cases hread.symm.trans hread'
  have hread : readLines ({} : Options).gr8 lines =
      .ok ⟨start :: (storage ++ [entry, finish]), []⟩ := hread
  have herrors := h.hasErrors_eq_false hne hname htarget hrs
  have hentry := (h.wellDeclared hne).entryPoint_of_denotes hrs rfl h.start_label h.denotes_entry
  rw [h.addressAt_entry, if_neg (by omega)] at hentry
  have hcompile := compile_of_errorFree hread hrs herrors
  rw [hentry] at hcompile
  exact ⟨_, analyze_of_readLines hread, herrors, hentry, hcompile⟩

end BeginsBehind

/-- The statement that a line writes, if it is read to its end. -/
def statement? (gr8 : Bool) (number : Nat) (line : String) : Option Statement := do
  let tokens ← (Token.scan gr8 number line).toOption
  let (s, rest) ← ((Statement.Line.ofTokens number tokens).statement tokens).toOption
  if Statement.atEnd tokens = false ∧ Statement.atEnd rest = true then some s else none

/-- A line gives the records of its statement. -/
theorem readLine_of_statement? {gr8 : Bool} {number : Nat} {line : String} {s : Statement}
    (h : statement? gr8 number line = some s) {bodies : List Body}
    (hbodies : Statement.HasBodies s.mnemonic s.operands bodies) :
    ∃ tokens, readLine gr8 number line = .ok ⟨s.recordsOf number tokens bodies, []⟩ := by
  obtain ⟨tokens, htokens, h⟩ := Option.bind_eq_some_iff.1 h
  obtain ⟨⟨s', rest⟩, hs, h⟩ := Option.bind_eq_some_iff.1 h
  obtain ⟨⟨hbegin, hend⟩, heq⟩ := Option.ite_none_right_eq_some.1 h
  cases heq
  rw [Traversal.toOption_eq_some] at htokens hs
  refine ⟨tokens, ?_⟩
  rw [readLine_eq, readNonblank, htokens]
  exact Statement.read_of_statement (Token.spelled_of_scan htokens) hs hbegin hend hbodies

theorem exists_record {gr8 : Bool} {number : Nat} {line : String} {s : Statement}
    (h : statement? gr8 number line = some s) {body : Body}
    (hbody : Statement.HasBodies s.mnemonic s.operands [body]) :
    ∃ r, readLine gr8 number line = .ok ⟨[r], []⟩ ∧ r.label = s.label ∧ r.body = body := by
  obtain ⟨tokens, hread⟩ := readLine_of_statement? h hbody
  exact ⟨_, hread, rfl, rfl⟩

/-- A line that reserves words gives as many records. -/
theorem exists_storage {gr8 : Bool} {number count : Nat} {line : String} {m : Mnemonic}
    (h : statement? gr8 number line = some ⟨none, m, .wordCount count⟩) (hcount : 0 < count) :
    ∃ storage, readLine gr8 number line = .ok ⟨storage, []⟩ ∧ storage.length = count ∧
      ∀ r ∈ storage, r.label = none ∧ r.body = .operation Opcode.nop none none none := by
  obtain ⟨tokens, hread⟩ := readLine_of_statement? h (.fillers hcount)
  refine ⟨_, hread, ?_, fun r hr => ⟨?_, ?_⟩⟩
  · rw [← List.length_map Record.body, Statement.map_body_recordsOf, List.length_replicate]
  · exact (Statement.of_mem_recordsOf hr).2.1.elim id id
  · have hbody := List.mem_map_of_mem (f := Record.body) hr
    rw [Statement.map_body_recordsOf] at hbody
    exact List.eq_of_mem_replicate hbody

/-- A subroutine whose entry stands behind 65536 words. -/
def farEntry : List String :=
  ["MAIN START FAR", " DS 65535", " DS 1", "FAR RET", " END"]

theorem exists_readLines_farEntry :
    ∃ start entry finish storage, BeginsBehind "MAIN" "FAR" start entry finish storage ∧
      storage.length = 65536 ∧
      readLines false farEntry = .ok ⟨start :: (storage ++ [entry, finish]), []⟩ := by
  -- Only the statements are computed. The second one gives too many records to write out.
  have hstart : statement? false 0 "MAIN START FAR" = some ⟨some "MAIN",
    .directive "START" .entry, .entry (some (.symbol "FAR" ⟨11, 14⟩))⟩ := by decide +kernel
  have hmost : statement? false 1 " DS 65535" =
    some ⟨none, .directive "DS" .wordCount, .wordCount 65535⟩ := by decide +kernel
  have hone : statement? false 2 " DS 1" =
    some ⟨none, .directive "DS" .wordCount, .wordCount 1⟩ := by decide +kernel
  have hentry : statement? false 3 "FAR RET" =
    some ⟨some "FAR", .operation "RET" 0x81 .none, .none⟩ := by decide +kernel
  have hfinish : statement? false 4 " END" =
    some ⟨none, .directive "END" .none, .none⟩ := by decide +kernel
  obtain ⟨start, hstart, hname, htarget⟩ := exists_record hstart .start
  obtain ⟨most, hmost, hlength, hmost_filler⟩ := exists_storage hmost (by decide)
  obtain ⟨one, hone, hlength', hone_filler⟩ := exists_storage hone (by decide)
  obtain ⟨entry, hentry, hlabel, hbody⟩ := exists_record hentry (.operation rfl)
  obtain ⟨finish, hfinish, hnone, hend⟩ := exists_record hfinish (.finish rfl)
  refine ⟨start, entry, finish, most ++ one, ⟨hname, ⟨_, htarget⟩, ?_, hlabel, ⟨_, hbody⟩, hnone,
    hend⟩, ?_, ?_⟩
  · exact List.forall_mem_append.2 ⟨hmost_filler, hone_filler⟩
  · rw [List.length_append, hlength, hlength']
  · have hlines : List.Forall₂ (fun p reading => readLine false p.2 p.1 = .ok reading)
        farEntry.zipIdx [⟨[start], []⟩, ⟨most, []⟩, ⟨one, []⟩, ⟨[entry], []⟩, ⟨[finish], []⟩] :=
      .cons hstart (.cons hmost (.cons hone (.cons hentry (.cons hfinish .nil))))
    simpa using readLines_of_forall₂ hlines

/-- Nothing is wrong with this program, but it has no entry and cannot be assembled. -/
theorem no_entryPoint_farEntry :
    ∃ a, analyze {} farEntry = .ok a ∧ Diagnostic.hasErrors a.diagnostics = false ∧
      Image.entryPoint a.records a.labels = .error (.noEntryPoint "MAIN") ∧
      compile {} farEntry = .error (.encoding (.noEntryPoint "MAIN")) := by
  obtain ⟨start, entry, finish, storage, h, hlength, hread⟩ := exists_readLines_farEntry
  exact h.no_entryPoint (by decide) (by decide) (by decide) hread (by omega)

end Assembly

end Comet
