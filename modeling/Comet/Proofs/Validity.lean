import Comet.Proofs.LiteralPooling

/-!
# Valid programs

`IsValid` says in terms of the source text which programs are correct: its lines can be
read, its labels are short and declared once, and all of its names and literals stand for
addresses that fit in a word. Analysing a program reports an error exactly if it is not
valid (`hasErrors_analyze_iff`), although every phase goes on after the errors of another.

The labels that pooling makes up are never reported. A literal whose name were too long
would stand behind so many others that its address does not fit.
-/

namespace Comet

namespace Assembly

/-- The address of the record at a place of a source text. -/
def addressAt (rs : List Record) (k : Nat) : Nat :=
  ((rs.take k).map Record.byteLength).sum / 2

/-- A line of blanks only. -/
def IsBlankLine (line : String) : Prop := ∀ c ∈ line.toList, Text.isBlank c = true

/-- A program that is correct as far as it can be told before it runs. The records are those
that its lines give. -/
structure IsValid (options : Options) (lines : List String) (rs : List Record) : Prop where
  /-- Lines that are not blank are read without an error. -/
  line : ∀ number line, lines[number]? = some line → ¬ IsBlankLine line →
    ∃ reading, readLine options.gr8 number line = .ok reading ∧
      Diagnostic.hasErrors reading.diagnostics = false
  label_length : ∀ r ∈ rs, ∀ name ∈ r.label, name.length ≤ 8
  /-- A label is declared once in a scope, -/
  label_unique : ∀ (i j : Nat) (a b : Record) name, rs[i]? = some a → rs[j]? = some b →
    a.label = some name → b.label = some name →
    scopeAt options.scoping rs i = scopeAt options.scoping rs j → i = j
  /-- and by one start in all scopes. -/
  start_unique : ∀ (i j : Nat) (a b : Record) name, rs[i]? = some a → rs[j]? = some b →
    a.label = some name → b.label = some name → a.IsStart → b.IsStart → i = j
  /-- The entry of a subroutine is a label of its own scope, but not of a start. -/
  entry : ∀ i r target, rs[i]? = some r → r.body = .start (some target) →
    ∃ name span k e, target = .symbol name span ∧ rs[k]? = some e ∧ e.label = some name ∧
      ¬ e.IsStart ∧ scopeAt options.scoping rs k = scopeAt options.scoping rs i
  /-- A name is the label of a start or a label of its scope. -/
  symbol : ∀ i r name span, rs[i]? = some r → .symbol name span ∈ r.operands →
    ∃ k e, rs[k]? = some e ∧ e.label = some name ∧
      (e.IsStart ∨ scopeAt options.scoping rs k = scopeAt options.scoping rs i)
  symbol_address : ∀ i r name span k, rs[i]? = some r → .symbol name span ∈ r.operands →
    Denotes options.scoping rs name (scopeAt options.scoping rs i) k → addressAt rs k ≤ 65535
  literal_address : ∀ k o, (occurrences rs)[k]? = some o → LiteralPool.addressOf rs k ≤ 65535

/-! ## Lines -/

/-- Blank lines give nothing. -/
theorem readLine_of_isBlankLine (gr8 : Bool) (number : Nat) {line : String}
    (h : IsBlankLine line) : readLine gr8 number line = .ok ⟨[], []⟩ :=
  if_pos (List.all_eq_true.2 h)

theorem hasErrors_readLines {gr8 : Bool} {lines : List String} {reading : Statement.Reading}
    (h : readLines gr8 lines = .ok reading) :
    Diagnostic.hasErrors reading.diagnostics = false ↔
      ∀ number line, lines[number]? = some line → ¬ IsBlankLine line →
        ∃ reading, readLine gr8 number line = .ok reading ∧
          Diagnostic.hasErrors reading.diagnostics = false := by
  obtain ⟨readings, hreadings, rfl⟩ := Traversal.bind_pure_eq_ok.1 h
  rw [Diagnostic.hasErrors_flatMap_eq_false]
  constructor
  · intro hall number line hline _
    have hpair : lines.zipIdx[number]? = some (line, number) := by
      simp [hline]
    obtain ⟨reading, hreading, hread⟩ := Traversal.getElem?_of_mapM hreadings hpair
    exact ⟨reading, hread, hall reading (List.mem_of_getElem? hreading)⟩
  · intro hall reading hreading
    obtain ⟨⟨line, number⟩, hpair, hread⟩ := Traversal.exists_of_mem_mapM hreadings hreading
    have hline := List.mem_zipIdx_iff_getElem?.1 hpair
    by_cases hblank : IsBlankLine line
    · dsimp only at hread
      rw [readLine_of_isBlankLine gr8 number hblank] at hread
      cases hread
      rfl
    · obtain ⟨reading', hread', hnone⟩ := hall number line hline hblank
      cases hread.symm.trans hread'
      exact hnone

/-! ## Names -/

section Names

variable {options : Options} {lines : List String} {rs : List Record}

theorem IsValid.declaresAt_unique (h : IsValid options lines rs) {i j : Nat} {name : String}
    {d d' : Declaration} (hi : DeclaresAt rs i name d) (hj : DeclaresAt rs j name d')
    (hor : scopeAt options.scoping rs i = scopeAt options.scoping rs j ∨
      d ≠ .inScope ∧ d' ≠ .inScope) : i = j := by
  obtain ⟨a, ha, hname, rfl⟩ := hi
  obtain ⟨b, hb, hname', rfl⟩ := hj
  rcases hor with hscope | ⟨hd, hd'⟩
  · exact h.label_unique i j a b name ha hb hname hname' hscope
  · exact h.start_unique i j a b name ha hb hname hname' (Record.declaration_ne_inScope.1 hd)
      (Record.declaration_ne_inScope.1 hd')

theorem IsValid.exists_entry (h : IsValid options lines rs) {i : Nat} {r : Record}
    (hr : rs[i]? = some r) {target : String} (hd : r.declaration = .redirection target) :
    ∃ k, DeclaresAt rs k target .inScope ∧
      scopeAt options.scoping rs k = scopeAt options.scoping rs i := by
  obtain ⟨span, hbody⟩ := Record.declaration_eq_redirection.1 hd
  obtain ⟨_, _, k, e, heq, he, hlabel, hstart, hscope⟩ := h.entry i r _ hr hbody
  cases heq
  exact ⟨k, ⟨e, he, hlabel, Record.declaration_eq_inScope.2 hstart⟩, hscope⟩

theorem IsValid.wellDeclared (h : IsValid options lines rs) : WellDeclared options.scoping rs :=
  wellDeclared_of_unique (fun _ _ _ _ _ hi hj hor => h.declaresAt_unique hi hj hor)
    fun _ _ _ hr hd => h.exists_entry hr hd

theorem fits_natCast {address : Nat} : Word.fits (address : Int) = true ↔ address ≤ 65535 := by
  rw [Word.fits_iff]
  omega

theorem resolveProblem?_symbol {t : LabelTable} {line scope address : Nat} {name : String}
    {span : Span} (haddress : t.address? name scope = some address) :
    (Operand.symbol name span).resolveProblem? .exact t line scope = none ↔ address ≤ 65535 := by
  rw [Operand.resolveProblem?, haddress, ← fits_natCast]
  by_cases hfits : Word.fits (AddressReading.exact address) = true
  · exact iff_of_true (if_pos hfits) hfits
  · exact iff_of_false (by simp [hfits]) hfits

/-- An operand of a laid out record is one of its source record or the name of a literal. -/
theorem mem_operands_placed {scoping : Bool} {i : Nat} {p : Record} (hp : rs[i]? = some p)
    {operand : Operand} (h : operand ∈ (placed scoping rs i p).operands) :
    operand ∈ p.operands ∨ ∃ k o span, (occurrences rs)[k]? = some o ∧
      operand = .symbol (LiteralPool.literalName (k + 1)) span := by
  obtain ⟨j, hj⟩ := List.mem_iff_getElem?.1 h
  rw [getElem?_operands_placed, Option.map_eq_some_iff] at hj
  obtain ⟨source, hsource, rfl⟩ := hj
  cases source with
  | resolved value => exact .inl (List.mem_of_getElem? hsource)
  | symbol name span => exact .inl (List.mem_of_getElem? hsource)
  | literal l span =>
    obtain ⟨k, hk⟩ := List.mem_iff_getElem?.1 (Occurrence.mem_occurrences hp hsource)
    obtain ⟨r, span', hr, -, -, heq⟩ := Occurrence.getElem?_occurrences hk
    cases hp.symm.trans hr
    exact .inr ⟨k, _, span, hk, by rw [heq]; rfl⟩

/-- The name of a literal stands for the address of its data. -/
theorem WellDeclared.address?_literalName {scoping : Bool} (h : WellDeclared scoping rs)
    (hrs : ∀ r ∈ rs, r.WellFormed) {k : Nat} {o : Occurrence} (ho : (occurrences rs)[k]? = some o)
    (scope : Nat) : (labels scoping rs).address? (LiteralPool.literalName (k + 1)) scope =
      some (LiteralPool.addressOf rs k) := by
  have hne := Occurrence.nonempty_literals hrs o (List.mem_of_getElem? ho)
  obtain ⟨g, hg, hname, haddress⟩ := Assembled.exists_generated ho hne
  rw [← haddress]
  exact h.address?_generated hrs hg hname scope

/-- The name of a literal always has an address. -/
theorem exists_address?_literalName (scoping : Bool) (hrs : ∀ r ∈ rs, r.WellFormed) {k : Nat}
    {o : Occurrence} (ho : (occurrences rs)[k]? = some o) (scope : Nat) :
    ∃ address, (labels scoping rs).address? (LiteralPool.literalName (k + 1)) scope =
      some address := by
  have hne := Occurrence.nonempty_literals hrs o (List.mem_of_getElem? ho)
  obtain ⟨g, hg, hname, -⟩ : ∃ g ∈ (layout scoping rs).generated, _ ∧ _ :=
    Assembled.exists_generated ho hne
  have hdistinct : ((layout scoping rs).generated.filterMap (·.label)).Nodup := by
    rw [filterMap_label_layout scoping hrs]
    exact LiteralPool.nodup_literalNames _
  have hsame : LabelTable.SameDeclarations _ (labels scoping rs) :=
    (LabelTable.sameDeclarations_foldl_referToEntry _ _).trans
      (LabelTable.sameDeclarations_referByRecords _ _)
  have hglobal : (labels scoping rs).addressOf? (.global (LiteralPool.literalName (k + 1))) =
      some g.address := by
    rw [hsame.addressOf?_eq, LabelTable.addressOf?,
      LabelTable.get?_foldl_declareGenerated hdistinct hg hname]
    rfl
  refine Option.isSome_iff_exists.1 ?_
  rw [LabelTable.address?_eq, hglobal]
  simp

/-- A name stands for the address of what it denotes. -/
theorem WellDeclared.address?_eq_addressAt {scoping : Bool} (h : WellDeclared scoping rs)
    (hrs : ∀ r ∈ rs, r.WellFormed) {name : String} {scope k : Nat}
    (hk : Denotes scoping rs name scope k) :
    (labels scoping rs).address? name scope = some (addressAt rs k) := by
  obtain ⟨r, hr⟩ := hk.exists_record
  have hlaidOut : (layout scoping rs).records[k]? = some (placed scoping rs k r) := by
    rw [getElem?_layout, hr]
    rfl
  exact h.address?_of_denotes hrs hk hlaidOut

/-- Nothing is reported about the names of a valid program. -/
theorem IsValid.errorFree (h : IsValid options lines rs) (hrs : ∀ r ∈ rs, r.WellFormed) :
    ErrorFree options.scoping rs := by
  refine ⟨h.wellDeclared, fun r hr operand hoperand => ?_⟩
  obtain ⟨i, p, hp, rfl⟩ := exists_placed hr
  rcases mem_operands_placed hp hoperand with hsource | ⟨k, o, span, ho, rfl⟩
  · cases operand with
    | resolved value => rfl
    | literal l span => rfl
    | symbol name span =>
      obtain ⟨j, e, he, hlabel, hor⟩ := h.symbol i p name span hp hsource
      obtain ⟨k, hk⟩ := h.wellDeclared.exists_denotes hrs he hlabel hor
      have haddress := h.wellDeclared.address?_eq_addressAt hrs hk
      exact (resolveProblem?_symbol haddress).2 (h.symbol_address i p name span k hp hsource hk)
  · have haddress := h.wellDeclared.address?_literalName hrs ho
      (placed options.scoping rs i p).scope
    exact (resolveProblem?_symbol haddress).2 (h.literal_address k o ho)

/-- A laid out record has the operands of its source record, as far as they are names. -/
theorem symbol_mem_placed {scoping : Bool} {i : Nat} {p : Record} {name : String} {span : Span}
    (h : .symbol name span ∈ p.operands) :
    .symbol name span ∈ (placed scoping rs i p).operands := by
  obtain ⟨j, hj⟩ := List.mem_iff_getElem?.1 h
  refine List.mem_of_getElem? (i := j) ?_
  rw [getElem?_operands_placed, hj]
  rfl

variable {scoping : Bool}

theorem ErrorFree.exists_denotes_operand (h : ErrorFree scoping rs) (hrs : ∀ r ∈ rs, r.WellFormed)
    {i : Nat} {r : Record} (hr : rs[i]? = some r) {name : String} {span : Span}
    (hoperand : .symbol name span ∈ r.operands) :
    ∃ k, Denotes scoping rs name (scopeAt scoping rs i) k := by
  obtain ⟨address, haddress, -⟩ := h.exists_address (placed_mem_layout hr)
    (symbol_mem_placed hoperand)
  have hname : IsLabelName name := (hrs r (List.mem_of_getElem? hr)).operands _ hoperand
  obtain ⟨k, -, -, hk, -⟩ := h.exists_denoted hrs hname haddress
  exact ⟨k, hk⟩

theorem ErrorFree.addressAt_le (h : ErrorFree scoping rs) (hrs : ∀ r ∈ rs, r.WellFormed) {i : Nat}
    {r : Record} (hr : rs[i]? = some r) {name : String} {span : Span}
    (hoperand : .symbol name span ∈ r.operands) {k : Nat}
    (hk : Denotes scoping rs name (scopeAt scoping rs i) k) : addressAt rs k ≤ 65535 := by
  have hproblem := h.resolved _ (placed_mem_layout hr) _ (symbol_mem_placed hoperand)
  exact (resolveProblem?_symbol (h.address?_eq_addressAt hrs hk)).1 hproblem

theorem ErrorFree.addressOf_le (h : ErrorFree scoping rs) (hrs : ∀ r ∈ rs, r.WellFormed) {k : Nat}
    {o : Occurrence} (ho : (occurrences rs)[k]? = some o) : LiteralPool.addressOf rs k ≤ 65535 := by
  obtain ⟨r, span, hr, -, hoperand, hk⟩ := Occurrence.getElem?_occurrences ho
  have hnamed : .symbol (LiteralPool.literalName (k + 1)) span ∈
      (placed scoping rs o.place r).operands := by
    refine List.mem_of_getElem? (i := o.position) ?_
    rw [getElem?_operands_placed, hoperand, hk]
    rfl
  have hproblem := h.resolved _ (placed_mem_layout hr) _ hnamed
  exact (resolveProblem?_symbol (h.address?_literalName hrs ho _)).1 hproblem

end Names

end Assembly

/-! ## The length of labels -/

namespace LiteralPool

/-- The names of the literals that a program has room for are short. -/
theorem length_literalName {n : Nat} (h : n < 100000) : (literalName n).length ≤ 8 := by
  have hdigits : (Nat.toDigits 10 n).length ≤ 5 :=
    (Nat.length_toDigits_le_iff (by omega) (by omega)).2 (by omega)
  have hrepr : n.repr.length ≤ 5 := by rwa [← String.length_toList, Nat.toList_repr]
  have hmark : "lit".length = 3 := rfl
  rw [literalName, String.length_append, Nat.toString_eq_repr]
  omega

/-- Every literal takes a word at least. -/
theorem le_wordsBefore {rs : List Record} (h : Nonempty rs) {k : Nat}
    (hk : k ≤ (occurrences rs).length) : k ≤ wordsBefore rs k := by
  induction k with
  | zero => exact Nat.zero_le _
  | succ k ih =>
    have ho : (occurrences rs)[k]? = some (occurrences rs)[k] := List.getElem?_eq_getElem hk
    have hpos : 0 < ((occurrences rs)[k]).literal.words.length :=
      List.length_pos_iff.2 (h _ (List.getElem_mem hk))
    have hle := ih (Nat.le_of_lt hk)
    rw [wordsBefore_succ ho]
    omega

end LiteralPool

namespace Assembly

variable {rs : List Record}

/-- The labels of pooled data are short if every literal has an address of a word. -/
theorem check_generated {scoping : Bool} (hrs : ∀ r ∈ rs, r.WellFormed)
    (haddress : ∀ k o, (occurrences rs)[k]? = some o → LiteralPool.addressOf rs k ≤ 65535)
    {g : Record} (hg : g ∈ (layout scoping rs).generated) : g.check = [] := by
  refine Record.check_eq_nil.2 fun name hname => ?_
  have hmem : name ∈ (layout scoping rs).generated.filterMap (·.label) :=
    List.mem_filterMap.2 ⟨g, hg, hname⟩
  rw [filterMap_label_layout scoping hrs] at hmem
  obtain ⟨k, hk, rfl⟩ := List.mem_map.1 hmem
  rw [List.mem_range] at hk
  -- The words of the literals before this one come before its address.
  have hle := haddress k _ (List.getElem?_eq_getElem hk)
  have hbefore := LiteralPool.le_wordsBefore (Occurrence.nonempty_literals hrs) (Nat.le_of_lt hk)
  rw [LiteralPool.addressOf] at hle
  apply LiteralPool.length_literalName
  omega

theorem check_records_iff {scoping : Bool} {reading : Statement.Reading} :
    (∀ r ∈ (analyzeRecords scoping reading).records, r.check = []) ↔
      ∀ r ∈ reading.records, ∀ name ∈ r.label, name.length ≤ 8 := by
  rw [records_analyzeRecords, List.forall_mem_map]
  constructor
  · intro hall r hr
    obtain ⟨i, hi⟩ := List.mem_iff_getElem?.1 hr
    have hcheck := hall (placed scoping reading.records i r) (placed_mem_layout hi)
    exact Record.check_eq_nil.1 hcheck
  · intro hall r hr
    obtain ⟨i, p, hp, rfl⟩ := exists_placed hr
    exact Record.check_eq_nil.2 (hall p (List.mem_of_getElem? hp))

/-- A program whose names are resolved without errors is valid. -/
theorem ErrorFree.isValid {options : Options} {lines : List String}
    (h : ErrorFree options.scoping rs) (hrs : ∀ r ∈ rs, r.WellFormed)
    (hlines : ∀ number line, lines[number]? = some line → ¬ IsBlankLine line →
      ∃ reading, readLine options.gr8 number line = .ok reading ∧
        Diagnostic.hasErrors reading.diagnostics = false)
    (hlabels : ∀ r ∈ rs, ∀ name ∈ r.label, name.length ≤ 8) : IsValid options lines rs := by
  constructor
  case line => exact hlines
  case label_length => exact hlabels
  case label_unique =>
    intro i j a b name ha hb hname hname' hscope
    exact h.declaresAt_unique ⟨a, ha, hname, rfl⟩ ⟨b, hb, hname', rfl⟩ (.inl hscope)
  case start_unique =>
    intro i j a b name ha hb hname hname' hstart hstart'
    exact h.declaresAt_unique ⟨a, ha, hname, rfl⟩ ⟨b, hb, hname', rfl⟩
      (.inr ⟨Record.declaration_ne_inScope.2 hstart, Record.declaration_ne_inScope.2 hstart'⟩)
  case entry =>
    intro i r target hr hbody
    obtain ⟨name, span, rfl, -⟩ := (hrs r (List.mem_of_getElem? hr)).entry target hbody
    have hd := Record.declaration_eq_redirection.2 ⟨span, hbody⟩
    obtain ⟨k, ⟨e, he, hlabel, hd'⟩, hscope⟩ := h.exists_entryAt hr hd
    exact ⟨name, span, k, e, rfl, he, hlabel, Record.declaration_eq_inScope.1 hd', hscope⟩
  case symbol =>
    intro i r name span hr hoperand
    obtain ⟨k, hk⟩ := h.exists_denotes_operand hrs hr hoperand
    exact hk.exists_label
  case symbol_address =>
    exact fun i r name span k hr hoperand hk => h.addressAt_le hrs hr hoperand hk
  case literal_address => exact fun k o ho => h.addressOf_le hrs ho

/-- A program is analysed without errors exactly if it is valid. -/
theorem hasErrors_analyze_iff (options : Options) (lines : List String) :
    ∃ a reading, analyze options lines = .ok a ∧ readLines options.gr8 lines = .ok reading ∧
      (Diagnostic.hasErrors a.diagnostics = false ↔ IsValid options lines reading.records) := by
  obtain ⟨reading, hread, hrs⟩ := exists_readLines options.gr8 lines
  refine ⟨_, reading, analyze_of_readLines hread, hread, ?_⟩
  rw [hasErrors_analyzeRecords, hasErrors_readLines hread, List.forall_mem_append,
    check_records_iff]
  constructor
  · rintro ⟨hlines, herrors, hlabels, -⟩
    exact herrors.isValid hrs hlines hlabels
  · intro h
    refine ⟨h.line, h.errorFree hrs, h.label_length, fun g hg => ?_⟩
    rw [generated_analyzeRecords] at hg
    exact check_generated hrs h.literal_address hg

/-- A subroutine may jump to a label of another one, as long as there is only one scope. -/
example : (analyze {}
    ["MAIN START", "LOOP RET", " END", "SUB START", " JUMP LOOP", " END"]).toOption.map
    (fun a => Diagnostic.hasErrors a.diagnostics) = some false := by decide +kernel

example : (analyze { scoping := true }
    ["MAIN START", "LOOP RET", " END", "SUB START", " JUMP LOOP", " END"]).toOption.map
    (fun a => Diagnostic.hasErrors a.diagnostics) = some true := by decide +kernel

end Assembly

end Comet
