import Comet.Proofs.Lookup
import Comet.Proofs.Placement
import Comet.Proofs.Reading

/-!
# Programs without errors

The diagnostics of an analysis are those of its phases, and the phases after reading
report errors only. So a program without errors has no reports of these phases at
all: its labels do not clash, the entries of its subroutines are declared, and all
of its names have addresses that fit in a word.
-/

namespace Comet

namespace Diagnostic

theorem hasErrors_append (ds ds' : List Diagnostic) :
    hasErrors (ds ++ ds') = (hasErrors ds || hasErrors ds') := by
  simp [hasErrors]

theorem eq_nil_of_hasErrors_eq_false {ds : List Diagnostic} (h : hasErrors ds = false)
    (herror : ∀ d ∈ ds, d.isError = true) : ds = [] := by
  refine List.eq_nil_iff_forall_not_mem.2 fun d hd => ?_
  have hfalse := List.any_eq_false.1 h d hd
  exact hfalse (herror d hd)

theorem hasErrors_eq_false_iff {ds : List Diagnostic} (herror : ∀ d ∈ ds, d.isError = true) :
    hasErrors ds = false ↔ ds = [] := by
  constructor
  · exact fun h => eq_nil_of_hasErrors_eq_false h herror
  · rintro rfl
    rfl

theorem hasErrors_flatMap_eq_false {α : Type} {f : α → List Diagnostic} {as : List α} :
    hasErrors (as.flatMap f) = false ↔ ∀ a ∈ as, hasErrors (f a) = false := by
  simp [hasErrors]

end Diagnostic

namespace LabelTable

/-- A step that adds errors to the reports. -/
def ReportsErrors (step : Reported → Record → Reported) : Prop :=
  ∀ state r, ∃ ds, (step state r).2 = state.2 ++ ds ∧ ∀ d ∈ ds, d.isError = true

theorem ReportsErrors.foldl {step : Reported → Record → Reported} (hstep : ReportsErrors step)
    {state : Reported} (h : ∀ d ∈ state.2, d.isError = true) (records : List Record) :
    ∀ d ∈ (records.foldl step state).2, d.isError = true := by
  induction records generalizing state with
  | nil => exact h
  | cons r records ih =>
    apply ih
    obtain ⟨ds, hds, herror⟩ := hstep state r
    rw [hds]
    exact List.forall_mem_append.2 ⟨h, herror⟩

theorem reportsErrors_declare : ReportsErrors declare := by
  intro state r
  rw [declare]
  split
  · exact ⟨[], (List.append_nil _).symm, by simp⟩
  · split
    · exact ⟨_, rfl, List.forall_mem_singleton.2 rfl⟩
    · exact ⟨[], (List.append_nil _).symm, by simp⟩

theorem reportsErrors_referToEntry : ReportsErrors referToEntry := by
  intro state r
  rw [referToEntry]
  split
  · split
    · exact ⟨[], (List.append_nil _).symm, by simp⟩
    · exact ⟨_, rfl, List.forall_mem_singleton.2 rfl⟩
  · exact ⟨[], (List.append_nil _).symm, by simp⟩

/-- Collecting the labels of a program reports errors only. -/
theorem isError_ofRecords (records generated : List Record) :
    ∀ d ∈ (ofRecords records generated).2, d.isError = true := by
  rw [ofRecords_eq]
  apply reportsErrors_referToEntry.foldl
  exact reportsErrors_declare.foldl (by simp) records

end LabelTable

theorem Operand.isError_resolveProblem? {reading : AddressReading} {t : LabelTable}
    {line scope : Nat} {operand : Operand} {d : Diagnostic}
    (h : operand.resolveProblem? reading t line scope = some d) : d.isError = true := by
  cases operand with
  | resolved value => cases h
  | literal l span => cases h
  | symbol name span =>
    rw [resolveProblem?] at h
    split at h
    · split at h
      · cases h
      · cases h
        rfl
    · cases h
      rfl

namespace Record

theorem isError_check (r : Record) : ∀ d ∈ r.check, d.isError = true := by
  rw [check]
  split
  · split
    · exact List.forall_mem_singleton.2 rfl
    · simp
  · simp

theorem check_eq_nil {r : Record} : r.check = [] ↔ ∀ name ∈ r.label, name.length ≤ 8 := by
  rw [check]
  cases r.label with
  | none => simp
  | some name =>
    dsimp only
    split <;> simp_all [maxLabelLength]

end Record

namespace Assembly

variable {scoping : Bool} {reading : Statement.Reading}

/-- The labels of a source text before the uses of its operands are recorded. -/
def declaredLabels (scoping : Bool) (rs : List Record) : LabelTable.Reported :=
  LabelTable.ofRecords (layout scoping rs).records (layout scoping rs).generated

/-- The labels of a source text. -/
def labels (scoping : Bool) (rs : List Record) : LabelTable :=
  (declaredLabels scoping rs).1.referByRecords (layout scoping rs).records

theorem labels_analyzeRecords (scoping : Bool) (reading : Statement.Reading) :
    (analyzeRecords scoping reading).labels = labels scoping reading.records := rfl

theorem records_analyzeRecords (scoping : Bool) (reading : Statement.Reading) :
    (analyzeRecords scoping reading).records = (layout scoping reading.records).records.map
      (Record.resolve .exact (labels scoping reading.records)) := rfl

theorem generated_analyzeRecords (scoping : Bool) (reading : Statement.Reading) :
    (analyzeRecords scoping reading).generated = (layout scoping reading.records).generated := rfl

theorem diagnostics_analyzeRecords (scoping : Bool) (reading : Statement.Reading) :
    (analyzeRecords scoping reading).diagnostics = reading.diagnostics ++
      (declaredLabels scoping reading.records).2 ++
      (layout scoping reading.records).records.flatMap
        (Record.resolveProblems .exact (labels scoping reading.records)) ++
      (analyzeRecords scoping reading).records.flatMap Record.check ++
      (analyzeRecords scoping reading).generated.flatMap Record.check := rfl

/-- Nothing is wrong with the labels of a source text. -/
structure WellDeclared (scoping : Bool) (rs : List Record) : Prop where
  declared : (declaredLabels scoping rs).2 = []

/-- Nothing is wrong with the labels and names of a source text. -/
structure ErrorFree (scoping : Bool) (rs : List Record) : Prop extends WellDeclared scoping rs where
  resolved : ∀ r ∈ (layout scoping rs).records, ∀ operand ∈ r.operands,
    operand.resolveProblem? .exact (labels scoping rs) r.line r.scope = none

theorem errorFree_iff {rs : List Record} :
    ErrorFree scoping rs ↔ Diagnostic.hasErrors (declaredLabels scoping rs).2 = false ∧
      Diagnostic.hasErrors ((layout scoping rs).records.flatMap
        (Record.resolveProblems .exact (labels scoping rs))) = false := by
  have hproblems : ∀ d ∈ (layout scoping rs).records.flatMap
      (Record.resolveProblems .exact (labels scoping rs)), d.isError = true := by
    intro d hd
    obtain ⟨r, -, hd⟩ := List.mem_flatMap.1 hd
    obtain ⟨operand, -, hd⟩ := List.mem_filterMap.1 hd
    exact Operand.isError_resolveProblem? hd
  have hlabels : ∀ d ∈ (declaredLabels scoping rs).2, d.isError = true :=
    LabelTable.isError_ofRecords _ _
  rw [Diagnostic.hasErrors_eq_false_iff hlabels,
    Diagnostic.hasErrors_eq_false_iff hproblems, List.flatMap_eq_nil_iff]
  simp only [Record.resolveProblems, List.filterMap_eq_nil_iff]
  exact ⟨fun h => ⟨h.declared, h.resolved⟩, fun h => ⟨⟨h.1⟩, h.2⟩⟩

/-- A program has no errors exactly if it was read without any, nothing is wrong with its
labels and names, and no label is too long. -/
theorem hasErrors_analyzeRecords :
    Diagnostic.hasErrors (analyzeRecords scoping reading).diagnostics = false ↔
      Diagnostic.hasErrors reading.diagnostics = false ∧ ErrorFree scoping reading.records ∧
      ∀ r ∈ (analyzeRecords scoping reading).records ++
        (analyzeRecords scoping reading).generated, r.check = [] := by
  have hcheck (r : Record) : Diagnostic.hasErrors r.check = false ↔ r.check = [] :=
    Diagnostic.hasErrors_eq_false_iff r.isError_check
  rw [diagnostics_analyzeRecords, errorFree_iff, List.forall_mem_append]
  simp only [Diagnostic.hasErrors_append, Bool.or_eq_false_iff,
    Diagnostic.hasErrors_flatMap_eq_false, hcheck]
  tauto

theorem errorFree_of_analyzeRecords
    (h : Diagnostic.hasErrors (analyzeRecords scoping reading).diagnostics = false) :
    ErrorFree scoping reading.records :=
  (hasErrors_analyzeRecords.1 h).2.1

theorem analyze_of_readLines {options : Options} {lines : List String}
    (hread : readLines options.gr8 lines = .ok reading) :
    analyze options lines = .ok (analyzeRecords options.scoping reading) := by
  rw [analyze, hread]
  rfl

theorem compile_eq_ok_iff {options : Options} {lines : List String}
    (hread : readLines options.gr8 lines = .ok reading) {c : Compilation} :
    compile options lines = .ok c ↔ (analyzeRecords options.scoping reading).compile = .ok c := by
  rw [compile, analyze_of_readLines hread]
  cases h : (analyzeRecords options.scoping reading).compile <;> simp [h]

/-- What an assembled program with an image consists of. -/
theorem compile_eq_ok {options : Options} {lines : List String} {c : Compilation} {w : List Word}
    (hread : readLines options.gr8 lines = .ok reading) (hc : compile options lines = .ok c)
    (hw : c.words = some w) :
    Diagnostic.hasErrors (analyzeRecords options.scoping reading).diagnostics = false ∧
      c.records = (analyzeRecords options.scoping reading).records ++
        (analyzeRecords options.scoping reading).generated ∧
      c.labels = labels options.scoping reading.records ∧
      Image.ofRecords (analyzeRecords options.scoping reading).records
        (analyzeRecords options.scoping reading).generated
        (labels options.scoping reading.records) = .ok w := by
  rw [compile, analyze_of_readLines hread] at hc
  dsimp only at hc
  generalize ha : analyzeRecords options.scoping reading = a at hc
  have hlabels : a.labels = labels options.scoping reading.records := by
    rw [← ha, labels_analyzeRecords]
  cases hcompile : a.compile with
  | error e => simp [hcompile] at hc
  | ok c' =>
    obtain rfl : c' = c := by simpa [hcompile] using hc
    obtain ⟨words, himage, h⟩ := Traversal.bind_eq_ok.1 hcompile
    cases h
    cases hw
    rw [Analysis.image?] at himage
    split at himage
    · cases himage
    · rename_i herrors
      obtain ⟨ws, hws, h⟩ := Traversal.bind_eq_ok.1 himage
      cases h
      exact ⟨Bool.eq_false_iff.2 herrors, rfl, hlabels, hlabels ▸ hws⟩

end Assembly

end Comet
