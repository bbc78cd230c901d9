import Comet.Proofs.Registration
import Comet.Proofs.SourceSpans
import Comet.Proofs.Validity

/-!
# Diagnostics point at the source

A diagnostic names a line of the source and a range of its columns. If reading stops at a problem,
the problem is about a part of the line (`isOfLine_of_arises`). All it takes is that tokens stand
where they say. The later phases find their places in the records, which are anchored in their
lines.

A problem that quotes a text stands at that text, even where the columns are computed or where
the quoted name was compared with the first token of a line only.
-/

namespace Comet

namespace Diagnostic

/-- The text that a problem quotes. -/
def Kind.subject? : Kind → Option String
  | duplicateLabel name | tooLongLabel name | reservedLabel name | undeclaredLabel name => some name
  | zeroIndex => some "GR0"
  | _ => none

/-- The diagnostic stands at a part of the line, which is what it quotes. -/
def IsAbout (d : Diagnostic) (source : String) : Prop :=
  ∃ text, d.span.Covers source text ∧
    ∀ subject, d.kind.subject? = some subject → text = subject.toList

/-- A problem that can be seen from one line. -/
structure IsOfLine (d : Diagnostic) (number : Nat) (source : String) : Prop where
  line : d.line = number
  about : d.IsAbout source
  declared : d.isUndeclared = false

theorem isUndeclared_of_subject?_eq_none {d : Diagnostic} (h : d.kind.subject? = none) :
    d.isUndeclared = false := by
  rw [isUndeclared]
  split
  · rename_i hkind
    rw [hkind] at h
    cases h
  · rfl

theorem isOfLine_of_covers {number : Nat} {span : Span} {kind : Kind} {source : String}
    {text : List Char} (h : span.Covers source text) (hkind : kind.subject? = none) :
    IsOfLine ⟨⟨number, span⟩, kind⟩ number source where
  line := rfl
  about := by
    refine ⟨text, h, fun subject hsubject => ?_⟩
    rw [hkind] at hsubject
    cases hsubject
  declared := isUndeclared_of_subject?_eq_none hkind

namespace Kind.Concerns

variable {text : String} {kind : Kind}

theorem subject (h : kind.Concerns text) {subject : String}
    (hsubject : kind.subject? = some subject) : text = subject := by
  cases h with
  | reservedLabel => exact Option.some.inj hsubject
  | _ => cases hsubject

theorem isUndeclared (h : kind.Concerns text) {location : Location} :
    Diagnostic.isUndeclared ⟨location, kind⟩ = false := by
  cases h <;> rfl

end Kind.Concerns

end Diagnostic

namespace Statement

namespace Line

/-- The tokens that are left stand in the text of the line. -/
structure IsOver (line : Line) (source : String) (tokens : List Token) : Prop where
  stop : line.stop = Text.byteLength source.toList
  stands : ∀ t ∈ tokens, t.StandsIn source

variable {line : Line} {source : String} {tokens rest : List Token}

namespace IsOver

theorem ofTokens {gr8 : Bool} {number : Nat} (h : Token.scan gr8 number source = .ok tokens) :
    (Line.ofTokens number tokens).IsOver source tokens :=
  ⟨stop_ofTokens h, Token.standsIn_of_mem_scan h⟩

variable (h : line.IsOver source tokens)

include h

/-- Beyond its last token a line goes on with empty tokens at its end. -/
theorem next (hrest : rest <:+ tokens) : (line.next rest).StandsIn source := by
  cases rest with
  | nil =>
    have hend := Span.Covers.ofLineEnd source
    rw [← h.stop] at hend
    exact hend
  | cons token rest => exact h.stands token (hrest.subset (.head rest))

/-- A diagnostic from a token to the end of the line. -/
theorem isOfLine_diagnosticFrom (hrest : rest <:+ tokens) {kind : Diagnostic.Kind}
    (hkind : kind.subject? = none) :
    (line.diagnosticFrom (line.next rest).span.start kind).IsOfLine line.number source := by
  obtain ⟨text, hcovers⟩ := Span.Covers.toLineEnd (h.next hrest)
  rw [← h.stop] at hcovers
  exact Diagnostic.isOfLine_of_covers hcovers hkind

/-- The problems of a line are about the line. -/
theorem isOfLine_of_arises {d : Diagnostic} (hd : line.Arises tokens d) :
    d.IsOfLine line.number source := by
  cases hd with
  | missing left => exact h.isOfLine_diagnosticFrom left rfl
  | unexpected goesOn => exact h.isOfLine_diagnosticFrom goesOn.isSuffix rfl
  | bareLabel => exact h.isOfLine_diagnosticFrom (List.tail_suffix tokens) rfl
  | ofToken left _ blames =>
    cases blames with
    | mk concerns =>
      refine ⟨rfl, ⟨_, h.next left, fun subject hsubject => ?_⟩, concerns.isUndeclared⟩
      rw [concerns.subject hsubject]
  | zeroIndex left _ register =>
    -- The token is spelled like the register, so it is three columns wide.
    have htoken := h.next left
    rw [Token.StandsIn, register] at htoken
    obtain ⟨before, after, hsource, hspan⟩ := htoken
    refine ⟨rfl, ⟨Register.gr0.name.toList, ⟨before, after, hsource, ?_⟩, ?_⟩, rfl⟩
    · rw [hspan]
      rfl
    · rintro _ ⟨⟩
      rfl

theorem isOfLine_of_mem_remark (hrest : rest <:+ tokens) {d : Diagnostic}
    (hd : d ∈ line.remark rest) : d.IsOfLine line.number source := by
  rw [remark] at hd
  split at hd
  · cases hd
  · rw [List.mem_singleton.1 hd]
    exact h.isOfLine_diagnosticFrom hrest rfl

end IsOver

end Line

/-- What is reported about a scanned line stands in it. -/
theorem isOfLine_of_read {gr8 : Bool} {number : Nat} {source : String} {tokens : List Token}
    (hscan : Token.scan gr8 number source = .ok tokens) {reading : Reading}
    (h : read number tokens = .ok reading) :
    ∀ d ∈ reading.diagnostics, d.IsOfLine number source := by
  have hover := Line.IsOver.ofTokens hscan
  intro d hd
  rcases read_cases (Token.spelled_of_scan hscan) h with
    ⟨-, rfl⟩ | ⟨d', harises, rfl⟩ | ⟨-, s, rest, bodies, -, -, hrest, -, rfl⟩
  · cases hd
  · rw [List.mem_singleton.1 hd]
    exact hover.isOfLine_of_arises harises
  · exact hover.isOfLine_of_mem_remark hrest hd

end Statement

/-! ## Records -/

/-- The diagnostic is about a part of a line of the source. -/
def Diagnostic.PointsInto (d : Diagnostic) (lines : List String) : Prop :=
  ∃ source, lines[d.line]? = some source ∧ d.IsAbout source

/-- What the record mentions stands in its line. -/
def Record.IsAnchoredIn (lines : List String) (r : Record) : Prop :=
  ∃ source, lines[r.line]? = some source ∧ r.IsAnchored source

namespace Record.IsAnchoredIn

variable {lines : List String} {r : Record}

theorem pointsInto_label (h : r.IsAnchoredIn lines) {name : String} (hname : r.label = some name)
    {kind : Diagnostic.Kind} (hkind : kind.subject? = some name) :
    Diagnostic.PointsInto ⟨r.labelLocation, kind⟩ lines := by
  obtain ⟨source, hsource, hanchored⟩ := h
  refine ⟨source, hsource, name.toList, hanchored.label name hname, ?_⟩
  intro subject hsubject
  rw [Option.some.inj (hkind.symm.trans hsubject)]

theorem pointsInto_mention (h : r.IsAnchoredIn lines) {m : Mention} (hm : m ∈ r.body.mentions)
    {kind : Diagnostic.Kind} (hkind : ∀ subject, kind.subject? = some subject → m.1 = subject) :
    Diagnostic.PointsInto ⟨⟨r.line, m.2⟩, kind⟩ lines := by
  obtain ⟨source, hsource, hanchored⟩ := h
  refine ⟨source, hsource, m.1.toList, hanchored.mentions m hm, ?_⟩
  intro subject hsubject
  rw [hkind subject hsubject]

end Record.IsAnchoredIn

namespace Assembly

variable {gr8 scoping : Bool} {number : Nat} {source : String} {lines : List String}
  {reading : Statement.Reading} {rs : List Record} {r : Record}

theorem isOfLine_of_readLine (h : readLine gr8 number source = .ok reading) :
    ∀ d ∈ reading.diagnostics, d.IsOfLine number source := by
  rw [readLine_eq, readNonblank] at h
  split at h
  · rename_i d hscan
    cases h
    obtain ⟨column, herror, rfl⟩ := Token.scan_eq_error_iff.1 hscan
    obtain ⟨rest, hvisits, -⟩ := Token.exists_visits_of_error herror
    obtain ⟨before, hsource, hcolumn⟩ := hvisits.exists_before
    have hcovers : Span.Covers ⟨column, Text.byteLength source.toList⟩ source rest := by
      refine ⟨before, [], by rw [List.append_nil, hsource], ?_⟩
      rw [hcolumn, hsource, Text.byteLength_append, Nat.zero_add]
      rfl
    exact List.forall_mem_singleton.2 (Diagnostic.isOfLine_of_covers hcovers rfl)
  · rename_i tokens hscan
    exact Statement.isOfLine_of_read hscan h

/-- What is reported while a source text is read points into it, and no name is undeclared yet. -/
theorem pointsInto_of_readLines (h : readLines gr8 lines = .ok reading) :
    ∀ d ∈ reading.diagnostics, d.PointsInto lines ∧ d.isUndeclared = false := by
  intro d hd
  obtain ⟨readings, hreadings, rfl⟩ := Traversal.bind_pure_eq_ok.1 h
  obtain ⟨lineReading, hmem, hd⟩ := List.mem_flatMap.1 hd
  obtain ⟨p, hp, hread⟩ := Traversal.exists_of_mem_mapM hreadings hmem
  have hline := isOfLine_of_readLine hread d hd
  refine ⟨⟨p.1, ?_, hline.about⟩, hline.declared⟩
  rw [hline.line]
  exact List.mem_zipIdx_iff_getElem?.1 hp

/-! ## Labels and names -/

/-- The names of a laid out record stand where the names and literals of its source stood. -/
theorem exists_mention_of_placed {i : Nat} {p : Record} {name : String} {span : Span}
    (h : .symbol name span ∈ (placed scoping rs i p).operands) :
    ∃ text, (text, span) ∈ p.body.mentions := by
  obtain ⟨j, hj⟩ := List.mem_iff_getElem?.1 h
  rw [getElem?_operands_placed, Option.map_eq_some_iff] at hj
  obtain ⟨operand, hoperand, hpooled⟩ := hj
  have hmem : operand ∈ p.body.operands ++ p.body.target?.toList :=
    List.mem_append_left _ (List.mem_of_getElem? hoperand)
  cases operand with
  | resolved value => cases hpooled
  | symbol name' span' =>
    cases hpooled
    exact ⟨name, List.mem_filterMap.2 ⟨_, hmem, rfl⟩⟩
  | literal l span' =>
    cases hpooled
    exact ⟨l.text, List.mem_filterMap.2 ⟨_, hmem, rfl⟩⟩

theorem target?_placed (i : Nat) (p : Record) :
    (placed scoping rs i p).body.target? = p.body.target? := by
  rw [placed, Record.pooled]
  cases p.body <;> rfl

theorem pointsInto_of_declaredLabels (hrs : ∀ p ∈ rs, p.IsAnchoredIn lines) :
    ∀ d ∈ (declaredLabels scoping rs).2, d.PointsInto lines := by
  intro d hd
  rw [declaredLabels, LabelTable.ofRecords_eq, LabelTable.foldl_referToEntry_eq] at hd
  rcases List.mem_append.1 hd with hduplicate | hmissing
  · rw [(LabelTable.registers_foldl_declare _).reports] at hduplicate
    obtain ⟨r, hr, hreport⟩ := List.mem_filterMap.1 hduplicate
    obtain ⟨k, hr, -⟩ := LabelTable.mem_select.1 hr
    obtain ⟨i, p, hp, rfl⟩ := exists_placed (List.mem_of_getElem? hr)
    obtain ⟨name, hname, rfl⟩ := Option.map_eq_some_iff.1 hreport
    exact (hrs p (List.mem_of_getElem? hp)).pointsInto_label hname rfl
  · obtain ⟨u, hu, rfl⟩ := List.mem_map.1 hmissing
    obtain ⟨r, hr, huse⟩ := List.mem_filterMap.1 (List.mem_of_mem_filter hu)
    obtain ⟨i, p, hp, rfl⟩ := exists_placed hr
    obtain ⟨operand, htarget, huse⟩ := Option.bind_eq_some_iff.1 huse
    rw [target?_placed] at htarget
    cases operand with
    | resolved value => cases huse
    | literal l span => cases huse
    | symbol name span =>
      cases huse
      have hmem : (name, span) ∈ p.body.mentions := by
        refine List.mem_filterMap.2 ⟨.symbol name span, List.mem_append_right _ ?_, rfl⟩
        exact Option.mem_toList.2 htarget
      apply (hrs p (List.mem_of_getElem? hp)).pointsInto_mention hmem
      rintro _ ⟨⟩
      rfl

/-- A name that cannot be resolved is one of the source, since pooled data has an address. -/
theorem pointsInto_of_resolveProblems (hrs : ∀ p ∈ rs, p.IsAnchoredIn lines)
    (hwell : ∀ p ∈ rs, p.WellFormed) (hr : r ∈ (layout scoping rs).records) :
    ∀ d ∈ r.resolveProblems .exact (labels scoping rs), d.PointsInto lines := by
  intro d hd
  obtain ⟨operand, hoperand, hproblem⟩ := List.mem_filterMap.1 hd
  obtain ⟨i, p, hp, rfl⟩ := exists_placed hr
  have hanchored := hrs p (List.mem_of_getElem? hp)
  cases operand with
  | resolved value => cases hproblem
  | literal l span => cases hproblem
  | symbol name span =>
    rw [Operand.resolveProblem?] at hproblem
    split at hproblem
    · split at hproblem
      · cases hproblem
      · cases hproblem
        obtain ⟨text, hmention⟩ := exists_mention_of_placed hoperand
        apply hanchored.pointsInto_mention hmention
        rintro _ ⟨⟩
    · rename_i hnone
      cases hproblem
      rcases mem_operands_placed hp hoperand with hsource | ⟨k, o, _, ho, ⟨⟩⟩
      · have hmention : (name, span) ∈ p.body.mentions :=
          List.mem_filterMap.2 ⟨.symbol name span, List.mem_append_left _ hsource, rfl⟩
        apply hanchored.pointsInto_mention hmention
        rintro _ ⟨⟩
        rfl
      · -- The name of a literal does not stand in the source, but it is declared.
        obtain ⟨address, haddress⟩ := exists_address?_literalName scoping hwell ho
          (placed scoping rs i p).scope
        rw [hnone] at haddress
        cases haddress

theorem pointsInto_of_check (hrs : ∀ p ∈ rs, p.IsAnchoredIn lines)
    (hr : r ∈ (layout scoping rs).records) (t : LabelTable) :
    ∀ d ∈ (r.resolve .exact t).check, d.PointsInto lines := by
  intro d hd
  obtain ⟨i, p, hp, rfl⟩ := exists_placed hr
  rw [Record.check] at hd
  split at hd
  · rename_i name hname
    split at hd
    · rw [List.mem_singleton.1 hd]
      exact (hrs p (List.mem_of_getElem? hp)).pointsInto_label hname rfl
    · cases hd
  · cases hd

end Assembly

/-- The diagnostic stands in the line, between whole characters, and at what it quotes. -/
structure Diagnostic.IsLocatedIn (d : Diagnostic) (source : String) : Prop where
  start_le_stop : d.span.start ≤ d.span.stop
  stop_le : d.span.stop ≤ source.utf8ByteSize
  start_valid : String.Pos.Raw.IsValid source ⟨d.span.start⟩
  stop_valid : String.Pos.Raw.IsValid source ⟨d.span.stop⟩
  subject : ∀ subject, d.kind.subject? = some subject →
    source.toByteArray.extract d.span.start d.span.stop = subject.toByteArray

theorem Diagnostic.IsAbout.isLocatedIn {d : Diagnostic} {source : String} (h : d.IsAbout source) :
    d.IsLocatedIn source := by
  obtain ⟨text, hcovers, hsubject⟩ := h
  refine ⟨hcovers.start_le_stop, hcovers.stop_le, hcovers.isValid_start, hcovers.isValid_stop, ?_⟩
  intro subject hkind
  rw [hcovers.extract_eq, hsubject subject hkind, String.ofList_toList]

namespace Assembly

/-- Every diagnostic points at the source text, except for those about the names of pooled data,
which do not stand in it. -/
theorem isLocatedIn_of_analyze (options : Options) (lines : List String) :
    ∃ a reported, analyze options lines = .ok a ∧
      a.diagnostics = reported ++ a.generated.flatMap Record.check ∧
      ∀ d ∈ reported, ∃ source, lines[d.line]? = some source ∧ d.IsLocatedIn source := by
  obtain ⟨reading, hread, hwell⟩ := exists_readLines options.gr8 lines
  have hanchored : ∀ p ∈ reading.records, p.IsAnchoredIn lines :=
    fun p hp => isAnchored_of_readLines hread hp
  refine ⟨_, _, analyze_of_readLines hread, diagnostics_analyzeRecords _ _, ?_⟩
  suffices hpoints : ∀ d ∈ reading.diagnostics ++
      (declaredLabels options.scoping reading.records).2 ++
      (layout options.scoping reading.records).records.flatMap
        (Record.resolveProblems .exact (labels options.scoping reading.records)) ++
      (analyzeRecords options.scoping reading).records.flatMap Record.check,
      d.PointsInto lines by
    intro d hd
    obtain ⟨source, hsource, habout⟩ := hpoints d hd
    exact ⟨source, hsource, habout.isLocatedIn⟩
  simp only [List.forall_mem_append]
  refine ⟨⟨⟨?_, ?_⟩, ?_⟩, ?_⟩
  · exact fun d hd => (pointsInto_of_readLines hread d hd).1
  · exact pointsInto_of_declaredLabels hanchored
  · intro d hd
    obtain ⟨r, hr, hd⟩ := List.mem_flatMap.1 hd
    exact pointsInto_of_resolveProblems hanchored hwell hr d hd
  · intro d hd
    obtain ⟨resolved, hresolved, hd⟩ := List.mem_flatMap.1 hd
    rw [records_analyzeRecords] at hresolved
    obtain ⟨r, hr, rfl⟩ := List.mem_map.1 hresolved
    exact pointsInto_of_check hanchored hr _ d hd

end Assembly

end Comet
