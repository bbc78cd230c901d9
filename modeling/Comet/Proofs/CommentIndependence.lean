import Comet.Proofs.Renaming
import Comet.Proofs.Trailers

/-!
# Comments and blank lines

Silent lines may be inserted in a program, and silent texts may be added to its lines. If
nothing is reported about the program, then nothing is reported about the longer one, and
the image is the same (`compile_of_annotated`).

The records of the two programs differ only in their places. A place is never looked at
except to say where a problem is, so taking the records out of their places does not
change the image or what is reported. This is a renaming that keeps all names.
-/

namespace Comet

@[simp] theorem Operand.renamed_id (operand : Operand) : operand.renamed id = operand := by
  cases operand <;> rfl

@[simp] theorem Body.renamed_id (b : Body) : b.renamed id = b := by
  cases b with
  | operation code r1 r2 adr => cases adr <;> simp [renamed, mapOperands]
  | start target => cases target <;> simp [renamed]
  | _ => simp [renamed, mapOperands]

namespace Renaming

/-- Takes records out of their places in a source text. -/
def unplacing : Renaming where
  name := id
  line := fun _ => 0
  tokens := fun _ => []
  injective := Function.injective_id
  name_literalName := fun _ => rfl
  tokens_nil := rfl

theorem record_unplacing (r : Record) : unplacing.record r = r.unplaced := by
  simp [record, Record.renamed, Record.unplaced, unplacing]

end Renaming

namespace Assembly

variable {scoping : Bool} {rs rs' : List Record} {w : List Word}

/-- Nothing is reported about the records, and they have the image. -/
structure Assembles (scoping : Bool) (rs : List Record) (w : List Word) : Prop where
  nameProblems : nameProblems scoping rs = []
  check : ∀ r ∈ resolvedRecords scoping rs ++ (layout scoping rs).generated, r.check = []
  encoded : encoded scoping rs = .ok w

theorem nameProblems_unplaced :
    nameProblems scoping (rs.map Record.unplaced) = [] ↔ nameProblems scoping rs = [] := by
  have hsame := Renaming.unplacing.nameProblems_map scoping rs
  rw [List.map_congr_left fun r _ => Renaming.record_unplacing r, Renaming.SameProblems] at hsame
  have hlength := congrArg List.length hsame
  rw [List.length_map, List.length_map] at hlength
  rw [← List.length_eq_zero_iff, hlength, List.length_eq_zero_iff]

theorem encoded_unplaced :
    encoded scoping (rs.map Record.unplaced) = .ok w ↔ encoded scoping rs = .ok w := by
  have hsame := Renaming.unplacing.encoded_map scoping rs
  rw [List.map_congr_left fun r _ => Renaming.record_unplacing r] at hsame
  rw [hsame]
  cases encoded scoping rs <;> simp [Except.mapError]

theorem check_unplaced :
    (∀ r ∈ resolvedRecords scoping (rs.map Record.unplaced) ++
        (layout scoping (rs.map Record.unplaced)).generated, r.check = []) ↔
      ∀ r ∈ resolvedRecords scoping rs ++ (layout scoping rs).generated, r.check = [] := by
  have hresolved := Renaming.unplacing.resolvedRecords_map scoping rs
  have hlayout := congrArg Layout.generated (Renaming.unplacing.layout_map scoping rs)
  rw [List.map_congr_left fun r _ => Renaming.record_unplacing r] at hresolved hlayout
  rw [hresolved, hlayout, ← List.map_append, List.forall_mem_map]
  refine forall₂_congr fun r _ => ?_
  rw [Record.check_eq_nil, Record.check_eq_nil, Renaming.record_unplacing]
  rfl

/-- The places of records do not matter. -/
theorem assembles_unplaced :
    Assembles scoping (rs.map Record.unplaced) w ↔ Assembles scoping rs w := by
  constructor
  · rintro ⟨hproblems, hcheck, hencoded⟩
    exact ⟨nameProblems_unplaced.1 hproblems, check_unplaced.1 hcheck, encoded_unplaced.1 hencoded⟩
  · rintro ⟨hproblems, hcheck, hencoded⟩
    exact ⟨nameProblems_unplaced.2 hproblems, check_unplaced.2 hcheck, encoded_unplaced.2 hencoded⟩

theorem diagnostics_analyzeRecords_eq_nil {reading : Statement.Reading} :
    (analyzeRecords scoping reading).diagnostics = [] ↔
      reading.diagnostics = [] ∧ nameProblems scoping reading.records = [] ∧
        ∀ r ∈ resolvedRecords scoping reading.records ++
          (layout scoping reading.records).generated, r.check = [] := by
  have hrecords : (analyzeRecords scoping reading).records =
      resolvedRecords scoping reading.records := rfl
  rw [diagnostics_analyzeRecords, hrecords, generated_analyzeRecords, nameProblems]
  simp only [List.append_eq_nil_iff, List.flatMap_eq_nil_iff, List.forall_mem_append]
  tauto

/-- When a program has an image and nothing is reported about it. -/
theorem exists_compile_iff {options : Options} {lines : List String} {reading : Statement.Reading}
    (hread : readLines options.gr8 lines = .ok reading) :
    (∃ c, compile options lines = .ok c ∧ c.words = some w ∧ c.diagnostics = []) ↔
      reading.diagnostics = [] ∧ Assembles options.scoping reading.records w := by
  constructor
  · rintro ⟨c, hc, hw, hnone⟩
    obtain ⟨-, -, -, himage⟩ := compile_eq_ok hread hc hw
    obtain ⟨words, -, rfl⟩ := Traversal.bind_pure_eq_ok.1 ((compile_eq_ok_iff hread).1 hc)
    obtain ⟨hreading, hproblems, hcheck⟩ := diagnostics_analyzeRecords_eq_nil.1 hnone
    exact ⟨hreading, hproblems, hcheck, himage⟩
  · rintro ⟨hreading, hproblems, hcheck, himage⟩
    have hnone := diagnostics_analyzeRecords_eq_nil.2 ⟨hreading, hproblems, hcheck⟩
    have himage? : (analyzeRecords options.scoping reading).image? = .ok (some w) := by
      rw [Analysis.image?, hnone, if_neg (by simp [Diagnostic.hasErrors])]
      exact Traversal.bind_pure_eq_ok.2 ⟨w, himage, rfl⟩
    exact ⟨_, (compile_eq_ok_iff hread).2 (Traversal.bind_pure_eq_ok.2 ⟨some w, himage?, rfl⟩), rfl,
      hnone⟩

/-! ## Annotated programs -/

/-- The second program is the first one with silent lines inserted and silent texts added to
its lines. -/
inductive Annotated : List String → List String → Prop
  | nil : Annotated [] []
  | insert {line : String} {lines lines' : List String} (silent : Text.IsSilent line.toList)
      (rest : Annotated lines lines') : Annotated lines (line :: lines')
  | append {line ext : String} {lines lines' : List String} (silent : Text.IsSilent ext.toList)
      (rest : Annotated lines lines') : Annotated (line :: lines) ((line ++ ext) :: lines')

/-- The lines are read one by one, the first of them with the given number, and nothing is
reported. -/
def ReadSilently (gr8 : Bool) (number : Nat) (lines : List String)
    (readings : List Statement.Reading) : Prop :=
  List.Forall₂ (fun p reading => readLine gr8 p.2 p.1 = .ok reading) (lines.zipIdx number)
      readings ∧
    ∀ reading ∈ readings, reading.diagnostics = []

theorem exists_readSilently_of_annotated {gr8 : Bool} {lines lines' : List String}
    (h : Annotated lines lines') (hsingle : ∀ line ∈ lines, '\n' ∉ line.toList) {number : Nat}
    {readings : List Statement.Reading} (hreadings : ReadSilently gr8 number lines readings)
    (number' : Nat) :
    ∃ readings', ReadSilently gr8 number' lines' readings' ∧
      (readings'.flatMap (·.records)).map Record.unplaced =
        (readings.flatMap (·.records)).map Record.unplaced := by
  induction h generalizing number number' readings with
  | nil =>
    obtain ⟨hall, -⟩ := hreadings
    cases hall
    exact ⟨[], ⟨.nil, by simp⟩, rfl⟩
  | insert silent _ ih =>
    obtain ⟨readings', ⟨hall, hnone⟩, hrecords⟩ := ih hsingle hreadings (number' + 1)
    refine ⟨⟨[], []⟩ :: readings', ⟨?_, ?_⟩, hrecords⟩
    · exact .cons (readLine_of_isSilent gr8 number' silent) hall
    · exact List.forall_mem_cons.2 ⟨rfl, hnone⟩
  | append silent _ ih =>
    obtain ⟨hall, hnone⟩ := hreadings
    rw [List.zipIdx_cons] at hall
    cases hall with
    | @cons _ reading _ readings hline hrest =>
      obtain ⟨hfirst, hothers⟩ := List.forall_mem_cons.1 hnone
      obtain ⟨hsingle, hsingles⟩ := List.forall_mem_cons.1 hsingle
      obtain ⟨records, diagnostics⟩ := reading
      cases hfirst
      obtain ⟨records', hline', hrecords⟩ := readLine_append hline hsingle silent number'
      obtain ⟨readings', ⟨hall', hnone'⟩, hflat⟩ := ih hsingles ⟨hrest, hothers⟩ (number' + 1)
      refine ⟨⟨records', []⟩ :: readings', ⟨.cons hline' hall', ?_⟩, ?_⟩
      · exact List.forall_mem_cons.2 ⟨rfl, hnone'⟩
      · rw [List.flatMap_cons, List.flatMap_cons, List.map_append, List.map_append, hflat, hrecords]

/-- Comments and blank lines do not affect the image. -/
theorem compile_of_annotated {options : Options} {lines lines' : List String}
    (hsingle : ∀ line ∈ lines, '\n' ∉ line.toList) (h : Annotated lines lines')
    {c : Compilation} {w : List Word} (hc : compile options lines = .ok c) (hw : c.words = some w)
    (hnone : c.diagnostics = []) :
    ∃ c', compile options lines' = .ok c' ∧ c'.words = some w ∧ c'.diagnostics = [] := by
  obtain ⟨reading, hread, -⟩ := exists_readLines options.gr8 lines
  obtain ⟨hreported, hassembles⟩ := (exists_compile_iff hread).1 ⟨c, hc, hw, hnone⟩
  obtain ⟨readings, hall, rfl⟩ := forall₂_of_readLines hread
  have hsilent : ReadSilently options.gr8 0 lines readings :=
    ⟨hall, List.flatMap_eq_nil_iff.1 hreported⟩
  obtain ⟨readings', ⟨hall', hnone'⟩, hrecords⟩ :=
    exists_readSilently_of_annotated h hsingle hsilent 0
  refine (exists_compile_iff (readLines_of_forall₂ hall')).2
    ⟨List.flatMap_eq_nil_iff.2 hnone', ?_⟩
  rw [← assembles_unplaced, hrecords]
  exact assembles_unplaced.2 hassembles

/-- A program with quotes and semicolons in its strings. -/
def quotedSource : List String :=
  ["MAIN START", " OUT ='IT''S',N", " RET", "N DC 4,'A;B'", " END"]

/-- The image of the program. -/
def quotedImage : List Word :=
  [0, 0, 0, 0, 0, 0, 0, 0, 0x9100, 8, 4, 0x8100, 4, 65, 59, 66, 73, 84, 39, 83]

/-- Comments with quotes are added to it. -/
theorem compile_of_annotated_quotes :
    ∃ c c', compile {} quotedSource = .ok c ∧ c.words = some quotedImage ∧ c.diagnostics = [] ∧
      compile {} ["; 'MAIN", "MAIN START" ++ ";", " OUT ='IT''S',N" ++ "; it's 'IT'", " RET" ++ "",
        "", "N DC 4,'A;B'" ++ "\t;'", "  ; END", " END" ++ "  "] = .ok c' ∧
      c'.words = some quotedImage ∧ c'.diagnostics = [] := by
  have hfound : ∃ c ∈ (compile {} quotedSource).toOption,
      c.words = some quotedImage ∧ c.diagnostics = [] := by
    decide +kernel
  obtain ⟨c, hc, hw, hnone⟩ := hfound
  have hc := Traversal.toOption_eq_some.1 hc
  have hsingle : ∀ line ∈ quotedSource, '\n' ∉ line.toList := by decide +kernel
  have hannotated : Annotated quotedSource
      ["; 'MAIN", "MAIN START" ++ ";", " OUT ='IT''S',N" ++ "; it's 'IT'", " RET" ++ "", "",
        "N DC 4,'A;B'" ++ "\t;'", "  ; END", " END" ++ "  "] :=
    .insert (by decide +kernel) (.append (by decide +kernel) (.append (by decide +kernel)
      (.append (by decide +kernel) (.insert (by decide +kernel) (.append (by decide +kernel)
        (.insert (by decide +kernel) (.append (by decide +kernel) .nil)))))))
  obtain ⟨c', hc', hw', hnone'⟩ := compile_of_annotated hsingle hannotated hc hw hnone
  exact ⟨c, c', hc, hw, hnone, hc', hw', hnone'⟩

end Assembly

end Comet
