import Comet.Proofs.DiagnosticSpans

/-!
# Every use of a name is accounted for

A use of a name is either recorded at the entry that it leads to or reported. `AccountsFor` says
that it is one of the two and only once: the places of all uses differ, so each of them can be
looked for among the recorded uses and among the reports. Which entry a use leads to is told by
the finished table, because no pass changes what a name stands for.

The proof pairs every use with the entry that it leads to (`traced`). The recorded uses are those
of the pairs with an entry, and the reported ones are those of the pairs without.
-/

namespace Comet

/-! ## The places of names and literals -/

/-- The places of the names and literals of a record. -/
def Record.places (r : Record) : List Location := r.body.mentions.map fun m => ⟨r.line, m.2⟩

theorem Body.spans_pooled (b : Body) (n : Nat) :
    (b.pooled n).mentions.map Prod.snd = b.mentions.map Prod.snd := by
  cases b with
  | operation code r1 r2 adr =>
    cases adr with
    | none => rfl
    | some adr => cases adr <;> rfl
  | transfer code buffer length => cases buffer <;> cases length <;> rfl
  | data value => cases value <;> rfl
  | _ => rfl

namespace Record

theorem places_of_use? (r : Record) (operands : List Operand) :
    ((operands.filterMap r.use?).map Use.place).Sublist
      ((operands.filterMap Operand.mention?).map fun m => ⟨r.line, m.2⟩) := by
  induction operands with
  | nil => exact .refl _
  | cons operand operands ih =>
    cases operand with
    | resolved value => exact ih
    | symbol name span => exact ih.cons_cons _
    | literal l span => exact ih.cons _

theorem uses_sublist_places (r : Record) :
    ((r.uses ++ r.entryUse?.toList).map Use.place).Sublist r.places := by
  have hentry : r.entryUse?.toList = r.body.target?.toList.filterMap r.use? := by
    rw [entryUse?]
    cases r.body.target? with
    | none => rfl
    | some operand => cases h : r.use? operand <;> simp [h]
  rw [hentry, uses, ← List.filterMap_append]
  exact r.places_of_use? _

/-- Literals get names, but they stay where they are. -/
theorem places_pooled (r : Record) (n : Nat) : (r.pooled n).places = r.places := by
  have hspans := congrArg (List.map fun span => (⟨r.line, span⟩ : Location)) (r.body.spans_pooled n)
  rwa [List.map_map, List.map_map] at hspans

end Record

namespace Assembly

variable {gr8 scoping : Bool} {number : Nat} {source : String} {lines : List String}
  {reading : Statement.Reading} {rs : List Record}

theorem places_layout (scoping : Bool) (rs : List Record) :
    (layout scoping rs).records.flatMap Record.places = rs.flatMap Record.places := by
  rw [List.flatMap_def, List.flatMap_def, layout, Layout.ofRecords, Layout.map_place fun _ _ => rfl,
    Layout.map_assignScopes fun _ _ => rfl, LiteralPool.map_records fun n r => r.places_pooled n]

theorem line_of_mem_places (h : readLine gr8 number source = .ok reading) {place : Location}
    (hplace : place ∈ reading.records.flatMap Record.places) : place.line = number := by
  obtain ⟨r, hr, hplace⟩ := List.mem_flatMap.1 hplace
  obtain ⟨m, -, rfl⟩ := List.mem_map.1 hplace
  exact line_of_readLine h hr

theorem nodup_places_of_readLine (h : readLine gr8 number source = .ok reading) :
    (reading.records.flatMap Record.places).Nodup := by
  have hplaces : reading.records.flatMap Record.places =
      ((reading.records.flatMap (·.body.mentions)).map Prod.snd).map
        fun span => ⟨number, span⟩ := by
    rw [List.map_map, List.map_flatMap]
    apply List.flatMap_congr
    intro r hr
    rw [Record.places, line_of_readLine h hr]
    rfl
  rw [hplaces]
  refine (nodup_mentions_of_readLine h).map ?_
  intro a b hab
  exact (Location.mk.inj hab).2

theorem exists_line_of_mem_places {numbered : List (String × Nat)}
    {readings : List Statement.Reading}
    (h : List.Forall₂ (fun p reading => readLine gr8 p.2 p.1 = .ok reading) numbered readings)
    {place : Location}
    (hplace : place ∈ readings.flatMap fun reading => reading.records.flatMap Record.places) :
    ∃ p ∈ numbered, place.line = p.2 := by
  induction h with
  | nil => cases hplace
  | cons hread _ ih =>
    rw [List.flatMap_cons] at hplace
    rcases List.mem_append.1 hplace with hplace | hplace
    · exact ⟨_, .head _, line_of_mem_places hread hplace⟩
    · obtain ⟨p, hp, hline⟩ := ih hplace
      exact ⟨p, .tail _ hp, hline⟩

/-- The places of different lines differ in their lines. -/
theorem nodup_places_of_forall₂ {numbered : List (String × Nat)}
    {readings : List Statement.Reading} (hnumbers : numbered.Pairwise fun p q => p.2 < q.2)
    (h : List.Forall₂ (fun p reading => readLine gr8 p.2 p.1 = .ok reading) numbered readings) :
    (readings.flatMap fun reading => reading.records.flatMap Record.places).Nodup := by
  induction h with
  | nil => exact .nil
  | cons hread hrest ih =>
    obtain ⟨hbefore, hnumbers⟩ := List.pairwise_cons.1 hnumbers
    rw [List.flatMap_cons]
    refine List.nodup_append.2 ⟨nodup_places_of_readLine hread, ih hnumbers, ?_⟩
    rintro place hplace _ hplace' rfl
    obtain ⟨q, hq, hline'⟩ := exists_line_of_mem_places hrest hplace'
    have hline := line_of_mem_places hread hplace
    have hlt := hbefore q hq
    omega

/-- All names and literals of a source text stand at different places. -/
theorem nodup_places_of_readLines (h : readLines gr8 lines = .ok reading) :
    (reading.records.flatMap Record.places).Nodup := by
  obtain ⟨readings, hreadings, rfl⟩ := forall₂_of_readLines h
  rw [List.flatMap_assoc]
  exact nodup_places_of_forall₂ (Occurrence.pairwise_zipIdx lines 0) hreadings

end Assembly

/-! ## Uses with the entries that they lead to -/

namespace LabelTable

/-- The uses of names by starts and by operands, each with the entry that it leads to. -/
def traced (t : LabelTable) (records : List Record) : List (Use × Option Key) :=
  (records.filterMap Record.entryUse?).map (fun u => (u, Search.ofStart t u)) ++
    (records.flatMap Record.uses).map fun u => (u, Search.ofOperand t u)

variable {records generated : List Record}

/-- The table records no uses. -/
def IsUnused (t : LabelTable) : Prop := ∀ key e, t.get? key = some e → e.references = []

theorem IsUnused.foldl_declareGenerated {t : LabelTable} (h : t.IsUnused)
    (generated : List Record) : (generated.foldl declareGenerated t).IsUnused := by
  induction generated generalizing t with
  | nil => exact h
  | cons g generated ih =>
    apply ih
    intro key e he
    rw [get?_declareGenerated] at he
    split at he
    · cases he
      rfl
    · exact h key e he

theorem isUnused_declarations (records generated : List Record) :
    (declarations records generated).IsUnused := by
  apply IsUnused.foldl_declareGenerated
  intro key e he
  obtain ⟨r, -, -, rfl⟩ := ((registers_foldl_declare records).represents.entry _ _).1 he
  rfl

theorem IsUnused.references_eq {t : LabelTable} (h : t.IsUnused) (key : Key) :
    t.references key = [] := by
  rw [references]
  cases he : t.get? key with
  | none => rfl
  | some e => exact h key e he

theorem IsUnused.allReferences_eq {t : LabelTable} (h : t.IsUnused) (hkeys : t.HasDistinctKeys) :
    t.allReferences = [] := by
  refine List.flatMap_eq_nil_iff.2 fun p hp => ?_
  exact h p.1 p.2 (hkeys.mem_entries_iff.1 hp)

/-- What a use leads to does not depend on the uses that are recorded. -/
theorem SameDeclarations.traced_eq {t t' : LabelTable} (h : t.SameDeclarations t')
    (records : List Record) : t'.traced records = t.traced records := by
  simp only [traced, Search.isLawful_ofStart.congr h, Search.isLawful_ofOperand.congr h]

section Finished

variable (records generated : List Record)

/-- The labels of records and pooled data with all uses. -/
def finished : LabelTable := (ofRecords records generated).1.referByRecords records

theorem finished_eq :
    finished records generated = (records.flatMap Record.uses).foldl (note .ofOperand)
      ((records.filterMap Record.entryUse?).foldl (note .ofStart)
        (declarations records generated)) := by
  rw [finished, referByRecords_eq, ofRecords_eq, foldl_referToEntry_eq]
  rfl

theorem sameDeclarations_finished :
    (declarations records generated).SameDeclarations (finished records generated) := by
  rw [finished_eq]
  exact (sameDeclarations_foldl_note _ _ _).trans (sameDeclarations_foldl_note _ _ _)

theorem hasDistinctKeys_finished : (finished records generated).HasDistinctKeys := by
  rw [finished, referByRecords_eq]
  exact (sameKeys_foldl_note _ _ _).hasDistinctKeys (hasDistinctKeys_ofRecords records generated)

/-- An entry records the starts that lead to it and then the operands that do. -/
theorem references_finished (key : Key) : (finished records generated).references key =
    ((records.filterMap Record.entryUse?).filter fun u =>
        Search.ofStart (finished records generated) u = some key).map Use.place ++
      ((records.flatMap Record.uses).filter fun u =>
        Search.ofOperand (finished records generated) u = some key).map Use.place := by
  have hsame := sameDeclarations_finished records generated
  have hstarts := sameDeclarations_foldl_note .ofStart (declarations records generated)
    (records.filterMap Record.entryUse?)
  simp only [Search.isLawful_ofStart.congr hsame, Search.isLawful_ofOperand.congr hsame]
  rw [finished_eq, Search.isLawful_ofOperand.references_foldl_note,
    Search.isLawful_ofStart.references_foldl_note,
    (isUnused_declarations records generated).references_eq, List.nil_append]
  simp only [Search.isLawful_ofOperand.congr hstarts]

/-- The recorded uses are those that lead to an entry. -/
theorem allReferences_finished : (finished records generated).allReferences.Perm
    ((((finished records generated).traced records).filter (·.2.isSome)).map (·.1.place)) := by
  have hkeys : (declarations records generated).HasDistinctKeys :=
    (registers_foldl_declare records).distinct.foldl_declareGenerated generated
  have hstarts := sameDeclarations_foldl_note .ofStart (declarations records generated)
    (records.filterMap Record.entryUse?)
  rw [(sameDeclarations_finished records generated).traced_eq, finished_eq]
  refine (Search.isLawful_ofOperand.allReferences_foldl_note _ _).trans ?_
  simp only [Search.isLawful_ofOperand.congr hstarts]
  refine ((Search.isLawful_ofStart.allReferences_foldl_note _ _).append_right _).trans ?_
  rw [(isUnused_declarations records generated).allReferences_eq hkeys, List.nil_append]
  simp [traced, List.filter_map, Function.comp_def]

/-- The reported uses are those that lead nowhere. -/
theorem missing_finished :
    missing .ofStart (declarations records generated) (records.filterMap Record.entryUse?) ++
      missing .ofOperand (finished records generated) (records.flatMap Record.uses) =
    (((finished records generated).traced records).filter (·.2.isNone)).map (·.1.report) := by
  rw [← missing_congr Search.isLawful_ofStart (sameDeclarations_finished records generated)]
  simp [traced, missing, List.filter_map, Function.comp_def]

theorem exists_references_of_traced {u : Use} {key : Key}
    (h : (u, some key) ∈ (finished records generated).traced records) :
    ∃ e, (finished records generated).get? key = some e ∧ u.place ∈ e.references := by
  have hmem : u.place ∈ (finished records generated).references key := by
    rw [references_finished]
    rcases List.mem_append.1 h with h | h
    · obtain ⟨u, hu, heq⟩ := List.mem_map.1 h
      obtain ⟨rfl, hkey⟩ := Prod.mk.inj heq
      refine List.mem_append_left _ (List.mem_map_of_mem (List.mem_filter.2 ⟨hu, ?_⟩))
      exact decide_eq_true hkey
    · obtain ⟨u, hu, heq⟩ := List.mem_map.1 h
      obtain ⟨rfl, hkey⟩ := Prod.mk.inj heq
      refine List.mem_append_right _ (List.mem_map_of_mem (List.mem_filter.2 ⟨hu, ?_⟩))
      exact decide_eq_true hkey
  rw [references] at hmem
  cases he : (finished records generated).get? key with
  | none =>
    rw [he] at hmem
    cases hmem
  | some e =>
    rw [he] at hmem
    exact ⟨e, rfl, hmem⟩

end Finished

end LabelTable

/-! ## Source texts -/

namespace Assembly

/-- All reports of names without a declaration at a place. -/
def Analysis.missingAt (a : Analysis) (place : Location) : List Diagnostic :=
  (a.diagnostics.filter Diagnostic.isUndeclared).filter (·.location == place)

/-- The use is recorded at the entry or, without one, reported, and it is so once. -/
inductive Analysis.Accounts (a : Analysis) (u : Use) : Option LabelTable.Key → Prop
  | recorded {key : LabelTable.Key} {e : LabelTable.Entry} (entry : a.labels.get? key = some e)
      (mem : u.place ∈ e.references) (once : a.labels.allReferences.count u.place = 1)
      (unreported : a.missingAt u.place = []) : Accounts a u (some key)
  | reported (unrecorded : u.place ∉ a.labels.allReferences)
      (once : a.missingAt u.place = [u.report]) : Accounts a u none

/-- Every use of a name by the records is accounted for. -/
structure Analysis.AccountsFor (a : Analysis) (records : List Record) : Prop where
  /-- The records are those that are resolved. -/
  resolved : a.records = records.map (Record.resolve .exact a.labels)
  /-- Uses are told apart by their places, -/
  places : ((records.filterMap Record.entryUse? ++ records.flatMap Record.uses).map
    Use.place).Nodup
  /-- and entries by their keys. -/
  keys : a.labels.HasDistinctKeys
  /-- A start leads to a label of its own scope. -/
  start : ∀ u ∈ records.filterMap Record.entryUse?,
    a.Accounts u (a.labels.present? (.inScope u.name u.scope))
  /-- An operand leads to the entry with the address that it is resolved to. -/
  operand : ∀ (i j : Nat) (r : Record) (name : String) (span : Span), records[i]? = some r →
    r.operands[j]? = some (Operand.symbol name span) → ∃ r' : Record, a.records[i]? = some r' ∧
      ((∃ key e, a.Accounts ⟨name, r.scope, r.line, span⟩ (some key) ∧
          a.labels.get? key = some e ∧ r'.operands[j]? = some (Operand.resolved e.address)) ∨
        (a.Accounts ⟨name, r.scope, r.line, span⟩ none ∧
          r'.operands[j]? = some (Operand.symbol name span)))
  /-- An entry lists its starts and then its operands, both in the order of the program. -/
  order : ∀ key e, a.labels.get? key = some e →
    e.references =
      ((records.filterMap Record.entryUse?).filter fun u =>
          a.labels.present? (.inScope u.name u.scope) = some key).map Use.place ++
        ((records.flatMap Record.uses).filter fun u =>
          a.labels.lookup? u.name u.scope = some key).map Use.place

variable {scoping : Bool} {lines : List String} {options : Options} {reading : Statement.Reading}

theorem labels_eq_finished (scoping : Bool) (rs : List Record) : labels scoping rs =
    LabelTable.finished (layout scoping rs).records (layout scoping rs).generated := rfl

/-- All uses of names in a source text stand at different places. -/
theorem nodup_uses (hread : readLines options.gr8 lines = .ok reading) (scoping : Bool) :
    (((layout scoping reading.records).records.filterMap Record.entryUse? ++
      (layout scoping reading.records).records.flatMap Record.uses).map Use.place).Nodup := by
  have hplaces := nodup_places_of_readLines hread
  rw [← places_layout scoping] at hplaces
  generalize (layout scoping reading.records).records = records at hplaces ⊢
  have hsublist : ((records.flatMap fun r => r.uses ++ r.entryUse?.toList).map Use.place).Sublist
      (records.flatMap Record.places) := by
    rw [List.map_flatMap]
    clear hplaces
    induction records with
    | nil => exact .refl _
    | cons r records ih => exact r.uses_sublist_places.append ih
  -- Record by record the uses are in the order of their places; the two passes regroup them.
  have hperm : (records.filterMap Record.entryUse? ++ records.flatMap Record.uses).Perm
      (records.flatMap fun r => r.uses ++ r.entryUse?.toList) := by
    rw [List.filterMap_eq_flatMap_toList]
    exact List.perm_append_comm.trans (List.flatMap_append_perm _ _ _)
  exact ((hperm.map Use.place).nodup_iff).2 (hplaces.sublist hsublist)

theorem isUndeclared_of_mem_check {r : Record} : ∀ d ∈ r.check, d.isUndeclared = false := by
  intro d hd
  rw [Record.check] at hd
  split at hd
  · split at hd
    · rw [List.mem_singleton.1 hd]
      rfl
    · cases hd
  · cases hd

theorem isUndeclared_of_mem_missing {find : LabelTable.Search} {t : LabelTable} {uses : List Use} :
    ∀ d ∈ LabelTable.missing find t uses, d.isUndeclared = true := by
  intro d hd
  obtain ⟨u, -, rfl⟩ := List.mem_map.1 hd
  rfl

/-- The reports of names without a declaration are those of the uses that lead nowhere. -/
theorem filter_diagnostics (hread : readLines options.gr8 lines = .ok reading) (scoping : Bool) :
    (analyzeRecords scoping reading).diagnostics.filter Diagnostic.isUndeclared =
      (((labels scoping reading.records).traced
        (layout scoping reading.records).records).filter (·.2.isNone)).map (·.1.report) := by
  have hnone {ds : List Diagnostic} (h : ∀ d ∈ ds, d.isUndeclared = false) :
      ds.filter Diagnostic.isUndeclared = [] :=
    List.filter_eq_nil_iff.2 fun d hd => Bool.eq_false_iff.1 (h d hd)
  have hreading := hnone fun d hd => (pointsInto_of_readLines hread d hd).2
  have hcheck (rs : List Record) :
      (rs.flatMap Record.check).filter Diagnostic.isUndeclared = [] := by
    apply hnone
    intro d hd
    obtain ⟨r, -, hd⟩ := List.mem_flatMap.1 hd
    exact isUndeclared_of_mem_check d hd
  have hduplicates (rs : List Record) :
      (rs.filterMap Record.duplicate?).filter Diagnostic.isUndeclared = [] := by
    apply hnone
    intro d hd
    obtain ⟨r, -, hd⟩ := List.mem_filterMap.1 hd
    obtain ⟨name, -, rfl⟩ := Option.map_eq_some_iff.1 hd
    rfl
  rw [diagnostics_analyzeRecords, List.filter_append, List.filter_append, List.filter_append,
    List.filter_append, hreading, hcheck, hcheck, List.append_nil, List.append_nil,
    List.nil_append, Record.filter_resolveProblems, declaredLabels, LabelTable.ofRecords_eq,
    LabelTable.foldl_referToEntry_eq, List.filter_append,
    (LabelTable.registers_foldl_declare _).reports, hduplicates, List.nil_append,
    List.filter_eq_self.2 isUndeclared_of_mem_missing, labels_eq_finished,
    ← LabelTable.missing_finished]
  rfl

/-- Among uses at different places, each is alone at its place. -/
theorem filter_place_eq {traced : List (Use × Option LabelTable.Key)}
    (h : (traced.map (·.1.place)).Nodup) {p : Use × Option LabelTable.Key} (hp : p ∈ traced) :
    traced.filter (fun q => q.1.place == p.1.place) = [p] := by
  induction traced with
  | nil => cases hp
  | cons q traced ih =>
    obtain ⟨hnotin, hrest⟩ := List.nodup_cons.1 h
    rcases List.mem_cons.1 hp with rfl | hp
    · have hnil : traced.filter (fun q => q.1.place == p.1.place) = [] := by
        refine List.filter_eq_nil_iff.2 fun q hq heq => hnotin ?_
        exact List.mem_map.2 ⟨q, hq, beq_iff_eq.1 heq⟩
      rw [List.filter_cons, if_pos (beq_self_eq_true _), hnil]
    · have hne : ¬ (q.1.place == p.1.place) = true :=
        fun heq => hnotin (List.mem_map.2 ⟨p, hp, (beq_iff_eq.1 heq).symm⟩)
      rw [List.filter_cons, if_neg hne, ih hrest hp]

/-- A use is recorded where it leads, or reported if it leads nowhere, and nothing else happens at
its place. -/
theorem accounts_of_mem_traced (hread : readLines options.gr8 lines = .ok reading) {u : Use}
    {key? : Option LabelTable.Key} (h : (u, key?) ∈ (labels scoping reading.records).traced
      (layout scoping reading.records).records) :
    (analyzeRecords scoping reading).Accounts u key? := by
  have hnodup : (((labels scoping reading.records).traced
      (layout scoping reading.records).records).map (·.1.place)).Nodup := by
    simpa [LabelTable.traced, Function.comp_def] using nodup_uses hread scoping
  -- So the reports and the records of uses at this place are those of this use alone.
  have halone := filter_place_eq hnodup h
  have hmissing : (analyzeRecords scoping reading).missingAt u.place =
      ([(u, key?)].filter (·.2.isNone)).map (·.1.report) := by
    rw [← halone, Analysis.missingAt, filter_diagnostics hread, List.filter_map, List.filter_comm]
    rfl
  have hcount : (analyzeRecords scoping reading).labels.allReferences.count u.place =
      ([(u, key?)].filter (·.2.isSome)).length := by
    rw [labels_analyzeRecords, labels_eq_finished,
      (LabelTable.allReferences_finished _ _).count_eq, ← labels_eq_finished, ← halone,
      List.count, List.countP_map, List.countP_eq_length_filter, List.filter_comm]
    rfl
  cases key? with
  | none =>
    refine .reported ?_ hmissing
    exact List.count_eq_zero.1 hcount
  | some key =>
    obtain ⟨e, he, hmem⟩ := LabelTable.exists_references_of_traced _ _ h
    exact .recorded he hmem hcount hmissing

/-- An operand that leads to an entry gets its address, and any other stays as it is. -/
theorem resolve_symbol (t : LabelTable) (name : String) (scope : Nat) (span : Span) :
    (∃ key e, t.lookup? name scope = some key ∧ t.get? key = some e ∧
      (Operand.symbol name span).resolve .exact t scope = .resolved e.address) ∨
    t.lookup? name scope = none ∧
      (Operand.symbol name span).resolve .exact t scope = .symbol name span := by
  rw [Operand.resolve]
  cases h : t.lookup? name scope with
  | none =>
    refine .inr ⟨rfl, ?_⟩
    rw [LabelTable.address?_eq_none_iff.2 h]
  | some key =>
    obtain ⟨e, he⟩ := Option.isSome_iff_exists.1 (LabelTable.isSome_of_lookup? h)
    refine .inl ⟨key, e, rfl, he, ?_⟩
    rw [LabelTable.address?_of_lookup? h he]
    rfl

/-- An operand is resolved to the address of the entry that records its use. -/
theorem accounts_of_operand (hread : readLines options.gr8 lines = .ok reading) {i j : Nat}
    {r : Record} {name : String} {span : Span}
    (hr : (layout scoping reading.records).records[i]? = some r)
    (hoperand : r.operands[j]? = some (.symbol name span)) :
    (∃ key e, (analyzeRecords scoping reading).Accounts ⟨name, r.scope, r.line, span⟩ (some key) ∧
      (labels scoping reading.records).get? key = some e ∧
      (r.resolve .exact (labels scoping reading.records)).operands[j]? =
        some (.resolved e.address)) ∨
    ((analyzeRecords scoping reading).Accounts ⟨name, r.scope, r.line, span⟩ none ∧
      (r.resolve .exact (labels scoping reading.records)).operands[j]? =
        some (.symbol name span)) := by
  have htraced : (⟨name, r.scope, r.line, span⟩,
      (labels scoping reading.records).lookup? name r.scope) ∈
        (labels scoping reading.records).traced (layout scoping reading.records).records := by
    refine List.mem_append_right _ (List.mem_map.2 ⟨⟨name, r.scope, r.line, span⟩, ?_, rfl⟩)
    refine List.mem_flatMap.2 ⟨r, List.mem_of_getElem? hr, ?_⟩
    exact List.mem_filterMap.2 ⟨_, List.mem_of_getElem? hoperand, rfl⟩
  have haccounts := accounts_of_mem_traced hread htraced
  rw [Record.resolve, Record.operands_mapOperands, List.getElem?_map, hoperand, Option.map_some]
  rcases resolve_symbol (labels scoping reading.records) name r.scope span with
    ⟨key, e, hkey, he, hresolve⟩ | ⟨hnone, hresolve⟩
  · rw [hkey] at haccounts
    exact .inl ⟨key, e, haccounts, he, congrArg some hresolve⟩
  · rw [hnone] at haccounts
    exact .inr ⟨haccounts, congrArg some hresolve⟩

/-- Every use of a name is recorded or reported, exactly once and never both. -/
theorem accountsFor_of_analyze (options : Options) (lines : List String) :
    ∃ reading a, readLines options.gr8 lines = .ok reading ∧ analyze options lines = .ok a ∧
      a.AccountsFor (layout options.scoping reading.records).records := by
  obtain ⟨reading, hread, -⟩ := exists_readLines options.gr8 lines
  refine ⟨reading, _, hread, analyze_of_readLines hread, ?_⟩
  constructor
  case resolved => exact records_analyzeRecords _ _
  case places => exact nodup_uses hread options.scoping
  case keys => exact LabelTable.hasDistinctKeys_finished _ _
  case start =>
    intro u hu
    apply accounts_of_mem_traced hread
    exact List.mem_append_left _ (List.mem_map.2 ⟨u, hu, rfl⟩)
  case operand =>
    intro i j r name span hr hoperand
    refine ⟨r.resolve .exact (labels options.scoping reading.records), ?_, ?_⟩
    · rw [records_analyzeRecords, List.getElem?_map, hr]
      rfl
    · exact accounts_of_operand hread hr hoperand
  case order =>
    intro key e he
    have hreferences := LabelTable.references_finished
      (layout options.scoping reading.records).records
      (layout options.scoping reading.records).generated key
    rw [LabelTable.references, ← labels_eq_finished] at hreferences
    rw [labels_analyzeRecords] at he
    rw [he] at hreferences
    exact hreferences

/-- The operand of the start comes before the operand of the jump, and the name that is not
declared is reported. -/
example : (analyze {} ["MAIN START LOOP", "LOOP JUMP LOOP", " CALL AWAY", " END"]).toOption.map
    (fun a => ((a.labels.get? (.inScope "LOOP" 1)).map (·.references), a.diagnostics)) =
      some (some [⟨0, ⟨11, 15⟩⟩, ⟨1, ⟨10, 14⟩⟩],
        [⟨⟨2, ⟨6, 10⟩⟩, .undeclaredLabel "AWAY"⟩]) := by decide +kernel

end Assembly

end Comet
