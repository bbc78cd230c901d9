import Comet.Proofs.Uses
import Mathlib.Data.List.Induction

/-!
# The first declaration of a label wins

Labels are declared in the order of the records. A label that is taken is reported, and its record
leaves no trace in the table; all other labels stay in it to the end. `Registers` is the invariant
of the traversal: it relates the table and the reports to the records that were declared and to
those that were reported. Every record adds to one of the two lists, whatever it is.

The labels of pooled data are added afterwards. If they are new, nothing is overwritten, and the
table has one entry or redirection for every label that was not reported.
-/

namespace Comet

/-! ## Declaring the labels of records -/

theorem Record.Clashes.symm {a b : Record} (h : a.Clashes b) : b.Clashes a := by
  obtain ⟨name, ha, hb, hor⟩ := h
  exact ⟨name, hb, ha, hor.imp Eq.symm And.symm⟩

/-- The report that the label of a record is taken. -/
def Record.duplicate? (r : Record) : Option Diagnostic :=
  r.label.map fun name => ⟨r.labelLocation, .duplicateLabel name⟩

namespace LabelTable

/-- The table has the labels of the declared records, and the reports are about the others. -/
structure Registers (state : Reported) (declared reported : List Record) : Prop where
  represents : state.1.Represents declared
  free : declared.Pairwise fun a b => ¬ a.Clashes b
  reports : state.2 = reported.filterMap Record.duplicate?
  distinct : state.1.HasDistinctKeys
  count : state.1.labelCount = (declared.filterMap (·.label)).length

theorem registers_empty : Registers (empty, []) [] [] where
  represents := represents_empty
  free := .nil
  reports := rfl
  distinct := hasDistinctKeys_empty
  count := rfl

variable {t : LabelTable} {state : Reported} {declared reported : List Record} {r : Record}
  {name : String}

theorem HasDistinctKeys.declare (h : state.1.HasDistinctKeys) (r : Record) :
    (declare state r).1.HasDistinctKeys := by
  rw [LabelTable.declare]
  split
  · exact h
  · split
    · exact h
    · rw [addLabel_eq]
      split
      · exact h.redirect _ _ _ _
      · exact h.insert _ _ _ _
      · exact h.insert _ _ _ _

/-- A record that does not clash with what is declared finds its place empty. -/
theorem Represents.labelCount_addLabel (h : t.Represents declared) (hname : r.label = some name)
    (hfree : ∀ a ∈ declared, ¬ a.Clashes r) :
    (t.addLabel name r).labelCount = t.labelCount + 1 := by
  by_cases hd : ∃ target, r.declaration = .redirection target
  · obtain ⟨target, hd⟩ := hd
    rw [addLabel_eq, hd]
    apply labelCount_redirect
    refine Option.eq_none_iff_forall_not_mem.2 fun d hmem => ?_
    obtain ⟨a, ha, target', hname', hd', -⟩ := (h.redirection _ _).1 hmem
    exact hfree a ha ⟨name, hname', hname, .inr ⟨by simp [hd'], by simp [hd]⟩⟩
  · obtain ⟨key, hkey⟩ := exists_entryKey? hname fun target h => hd ⟨target, h⟩
    rw [addLabel_of_entryKey? hname hkey]
    apply labelCount_insert
    refine Option.eq_none_iff_forall_not_mem.2 fun e hmem => ?_
    obtain ⟨a, ha, hkey', -⟩ := (h.entry _ _).1 hmem
    exact hfree a ha (Record.clashes_of_entryKey? hkey' hkey)

theorem Represents.labelCount_declare (h : state.1.Represents declared)
    (hfree : ∀ a ∈ declared, ¬ a.Clashes r) :
    (declare state r).1.labelCount = state.1.labelCount + r.label.toList.length := by
  rw [LabelTable.declare]
  cases hname : r.label with
  | none => rfl
  | some name =>
    have hnot : ¬ state.1.isTaken name r = true := by
      intro htaken
      obtain ⟨a, ha, hclash⟩ := (h.isTaken_iff hname).1 htaken
      exact hfree a ha hclash
    dsimp only
    rw [if_neg hnot]
    exact h.labelCount_addLabel hname hfree

/-- What declaring a record does: it adds the record to one of the two lists, to the reported
ones exactly if it clashes with a declared one. -/
theorem Registers.declare_cases (h : Registers state declared reported) (r : Record) :
    (Registers (declare state r) (declared ++ [r]) reported ∧ (declare state r).2 = state.2 ∧
      ∀ a ∈ declared, ¬ a.Clashes r) ∨
    (Registers (declare state r) declared (reported ++ [r]) ∧
      (declare state r).2.length = state.2.length + 1 ∧ ∃ a ∈ declared, a.Clashes r) := by
  rcases h.represents.declare_cases r with ⟨hsame, hrepresents, hfree⟩ |
    ⟨name, a, hname, ha, hclash, hreport⟩
  · refine .inl ⟨⟨hrepresents, ?_, hsame.trans h.reports, h.distinct.declare r, ?_⟩, hsame, hfree⟩
    · refine List.pairwise_append.2 ⟨h.free, List.pairwise_singleton _ _, ?_⟩
      intro a ha b hb
      cases List.mem_singleton.1 hb
      exact hfree a ha
    · rw [h.represents.labelCount_declare hfree, h.count, List.filterMap_append, List.length_append]
      cases hname : r.label <;> simp [hname]
  · refine .inr ⟨?_, ?_, a, ha, hclash⟩
    · rw [hreport]
      refine ⟨h.represents, h.free, ?_, h.distinct, h.count⟩
      simp [h.reports, Record.duplicate?, hname]
    · simp [hreport]

/-- The labels of the first `n` records, with the reports about them. -/
def ofFirst (n : Nat) (records : List Record) : Reported :=
  (records.take n).foldl declare (empty, [])

/-- Whether declaring the label of the record at a place adds a report. -/
def isReported (records : List Record) (i : Nat) : Bool :=
  (ofFirst i records).2.length < (ofFirst (i + 1) records).2.length

/-- The records whose labels are reported, or those whose labels are not. -/
def select (reported : Bool) (records : List Record) : List Record :=
  (records.zipIdx.filter fun p => isReported records p.2 == reported).map Prod.fst

/-- Whether a record is reported depends on the records up to it. -/
theorem isReported_append {front back : List Record} {i : Nat} (h : i < front.length) :
    isReported (front ++ back) i = isReported front i := by
  rw [isReported, isReported, ofFirst, ofFirst, ofFirst, ofFirst, List.take_append_of_le_length h,
    List.take_append_of_le_length (Nat.le_of_lt h)]

theorem isReported_take {records : List Record} {i n : Nat} (h : i < n) :
    isReported (records.take n) i = isReported records i := by
  rw [isReported, isReported, ofFirst, ofFirst, ofFirst, ofFirst, List.take_take, List.take_take,
    Nat.min_eq_left h, Nat.min_eq_left (Nat.le_of_lt h)]

theorem isReported_length (front : List Record) (r : Record) :
    isReported (front ++ [r]) front.length =
      decide ((front.foldl declare (empty, [])).2.length <
        (declare (front.foldl declare (empty, [])) r).2.length) := by
  simp [isReported, ofFirst, List.take_of_length_le]

theorem select_append_singleton (keep : Bool) (front : List Record) (r : Record) :
    select keep (front ++ [r]) = select keep front ++
      if isReported (front ++ [r]) front.length == keep then [r] else [] := by
  have hfront : front.zipIdx.filter (fun p => isReported (front ++ [r]) p.2 == keep) =
      front.zipIdx.filter fun p => isReported front p.2 == keep := by
    apply List.filter_congr
    intro p hp
    have hlt : p.2 < front.length := by simpa using List.snd_lt_of_mem_zipIdx hp
    rw [isReported_append hlt]
  rw [select, List.zipIdx_append, List.filter_append, hfront, List.map_append, ← select]
  split <;> simp_all

theorem mem_select {keep : Bool} {records : List Record} {a : Record} :
    a ∈ select keep records ↔ ∃ i, records[i]? = some a ∧ isReported records i = keep := by
  rw [select, List.mem_map]
  constructor
  · rintro ⟨⟨a, i⟩, hp, rfl⟩
    obtain ⟨hp, hkeep⟩ := List.mem_filter.1 hp
    exact ⟨i, List.mem_zipIdx_iff_getElem?.1 hp, beq_iff_eq.1 hkeep⟩
  · rintro ⟨i, ha, hkeep⟩
    have hp : (a, i) ∈ records.zipIdx := List.mem_zipIdx_iff_getElem?.2 ha
    exact ⟨(a, i), List.mem_filter.2 ⟨hp, beq_iff_eq.2 hkeep⟩, rfl⟩

/-- All records of a program are declared or reported. -/
theorem registers_foldl_declare (records : List Record) :
    Registers (records.foldl declare (empty, [])) (select false records) (select true records) := by
  -- Whether a record is reported depends on those before it, so the last one is taken off.
  induction records using List.reverseRecOn with
  | nil => exact registers_empty
  | append_singleton front r ih =>
    rw [List.foldl_append, List.foldl_cons, List.foldl_nil, select_append_singleton,
      select_append_singleton, isReported_length]
    rcases ih.declare_cases r with ⟨hdeclared, hsame, -⟩ | ⟨hreported, hlength, -⟩
    · simpa [hsame] using hdeclared
    · simpa [hlength] using hreported

/-- A record is reported exactly if it clashes with a declared one before it. -/
theorem isReported_iff_clashes {records : List Record} {i : Nat} {r : Record}
    (hr : records[i]? = some r) :
    isReported records i = true ↔
      ∃ j a, j < i ∧ records[j]? = some a ∧ isReported records j = false ∧ a.Clashes r := by
  obtain ⟨hi, rfl⟩ := List.getElem?_eq_some_iff.1 hr
  have hlength : (records.take i).length = i := List.length_take_of_le (Nat.le_of_lt hi)
  have hstep : isReported records i =
      isReported (records.take i ++ [records[i]]) (records.take i).length := by
    rw [List.take_append_getElem hi, hlength, isReported_take (Nat.lt_succ_self i)]
  have hmem (a : Record) : a ∈ select false (records.take i) ↔
      ∃ j, j < i ∧ records[j]? = some a ∧ isReported records j = false := by
    rw [mem_select]
    refine exists_congr fun j => ?_
    by_cases hj : j < i
    · simp [hj, isReported_take hj]
    · rw [List.getElem?_take, if_neg hj]
      simp [hj]
  rw [hstep, isReported_length, decide_eq_true_eq]
  constructor
  · intro hlt
    rcases (registers_foldl_declare (records.take i)).declare_cases records[i] with
      ⟨-, hsame, -⟩ | ⟨-, -, a, ha, hclash⟩
    · rw [hsame] at hlt
      exact absurd hlt (Nat.lt_irrefl _)
    · obtain ⟨j, hj, ha, hdeclared⟩ := (hmem a).1 ha
      exact ⟨j, a, hj, ha, hdeclared, hclash⟩
  · rintro ⟨j, a, hj, ha, hdeclared, hclash⟩
    rcases (registers_foldl_declare (records.take i)).declare_cases records[i] with
      ⟨-, -, hfree⟩ | ⟨-, hlength, -⟩
    · exact absurd hclash (hfree a ((hmem a).2 ⟨j, hj, ha, hdeclared⟩))
    · omega

/-! ## The labels of pooled data -/

theorem HasDistinctKeys.foldl_declareGenerated (h : t.HasDistinctKeys) (generated : List Record) :
    (generated.foldl declareGenerated t).HasDistinctKeys := by
  induction generated generalizing t with
  | nil => exact h
  | cons g generated ih =>
    apply ih
    rw [declareGenerated]
    split
    · exact h
    · exact h.insert _ _ _ _

theorem hasDistinctKeys_ofRecords (records generated : List Record) :
    (ofRecords records generated).1.HasDistinctKeys := by
  have hdeclared := (registers_foldl_declare records).distinct
  rw [ofRecords_eq, foldl_referToEntry_eq]
  exact (sameKeys_foldl_note _ _ _).hasDistinctKeys (hdeclared.foldl_declareGenerated generated)

/-- Every new label of pooled data adds an entry. -/
theorem labelCount_foldl_declareGenerated {generated : List Record}
    (hdistinct : (generated.filterMap (·.label)).Nodup)
    (hnew : ∀ name ∈ generated.filterMap (·.label), t.get? (.global name) = none) :
    (generated.foldl declareGenerated t).labelCount =
      t.labelCount + (generated.filterMap (·.label)).length := by
  induction generated generalizing t with
  | nil => rfl
  | cons g generated ih =>
    cases hname : g.label with
    | none =>
      rw [List.filterMap_cons_none hname] at hdistinct hnew ⊢
      rw [List.foldl_cons, declareGenerated, hname]
      exact ih hdistinct hnew
    | some name =>
      rw [List.filterMap_cons_some hname] at hdistinct hnew ⊢
      obtain ⟨hnotin, hdistinct⟩ := List.nodup_cons.1 hdistinct
      have hrest : ∀ name' ∈ generated.filterMap (·.label),
          (t.declareGenerated g).get? (.global name') = none := by
        intro name' hname'
        have hne : name ≠ name' := fun heq => hnotin (heq ▸ hname')
        rw [get?_declareGenerated, hname, if_neg (by simpa [Key.global] using hne)]
        exact hnew name' (.tail _ hname')
      rw [List.foldl_cons, ih hdistinct hrest, declareGenerated, hname, List.length_cons]
      dsimp only
      rw [addGlobal, labelCount_insert (hnew name (.head _)), Nat.add_assoc, Nat.add_comm 1]

/-- Labels of pooled data that no record has are new to the table of the records. -/
theorem Represents.get?_global_eq_none (h : t.Represents declared)
    (hfresh : ∀ a ∈ declared, a.label ≠ some name) : t.get? (.global name) = none := by
  refine Option.eq_none_iff_forall_not_mem.2 fun e hmem => ?_
  obtain ⟨a, ha, hkey, -⟩ := (h.entry _ _).1 hmem
  exact hfresh a ha (Record.entryKey?_eq_global.1 hkey).1

/-! ## The finished table -/

/-- The table has an entry with the address, the scope and the place of the record's label. -/
def HasEntryOf (t : LabelTable) (key : Key) (r : Record) : Prop :=
  ∃ e, t.get? key = some e ∧ e.address = r.address ∧ e.scope = r.scope ∧
    e.definition = some r.labelLocation

/-- The record at a place has the label, and the label is not reported. -/
structure DeclaresLabel (records : List Record) (i : Nat) (r : Record) (name : String) :
    Prop where
  record : records[i]? = some r
  label : r.label = some name
  unreported : isReported records i = false

/-- The labels of records and of pooled data are in the table, with one place for each of them,
except for those that are reported. -/
structure IsRegistered (records generated : List Record) (result : Reported) : Prop where
  /-- The reports about labels are those of the reported records, in order. -/
  reports : ∃ missing, result.2 = (select true records).filterMap Record.duplicate? ++ missing ∧
    ∀ d ∈ missing, ∃ name, d.kind = .undeclaredLabel name
  /-- A label is reported if it is declared before in the same scope, or by another start. -/
  isReported_iff : ∀ i r name, records[i]? = some r → r.label = some name →
    (isReported records i = true ↔ ∃ j a, j < i ∧ DeclaresLabel records j a name ∧
      (a.scope = r.scope ∨ a.IsStart ∧ r.IsStart))
  inScope : ∀ i r name, DeclaresLabel records i r name → ¬ r.IsStart →
    result.1.HasEntryOf (.inScope name r.scope) r
  global : ∀ i r name, DeclaresLabel records i r name → r.IsStart →
    (∀ target span, r.body ≠ .start (some (.symbol target span))) →
    result.1.HasEntryOf (.global name) r
  redirection : ∀ i r name target span, DeclaresLabel records i r name →
    r.body = .start (some (.symbol target span)) →
    result.1.redirection? name = some ⟨.inScope target r.scope, r.scope, some r.labelLocation⟩
  /-- No two records share an entry, -/
  own_entry : ∀ i j a b name name' key, DeclaresLabel records i a name →
    DeclaresLabel records j b name' → a.entryKey? = some key → b.entryKey? = some key → i = j
  /-- nor a redirection. -/
  own_redirection : ∀ i j a b name target target' span span', DeclaresLabel records i a name →
    DeclaresLabel records j b name → a.body = .start (some (.symbol target span)) →
    b.body = .start (some (.symbol target' span')) → i = j
  pooled : ∀ g ∈ generated, ∀ name ∈ g.label,
    ∃ e, result.1.get? (.global name) = some e ∧ e.address = g.address ∧ e.definition = none
  distinct : result.1.HasDistinctKeys
  count : result.1.size + result.1.redirections.length =
    ((select false records).filterMap (·.label)).length + (generated.filterMap (·.label)).length

section Finished

variable {records generated : List Record} {i j : Nat} {a b : Record}

theorem DeclaresLabel.mem_select (h : DeclaresLabel records i r name) :
    r ∈ select false records :=
  LabelTable.mem_select.2 ⟨i, h.record, h.unreported⟩

/-- Of two records that clash, one is reported. -/
theorem DeclaresLabel.eq_of_clashes {name' : String} (ha : DeclaresLabel records i a name)
    (hb : DeclaresLabel records j b name') (hclash : a.Clashes b) : i = j := by
  have hlater {i j : Nat} {a b : Record} {name name' : String}
      (ha : DeclaresLabel records i a name) (hb : DeclaresLabel records j b name')
      (hclash : a.Clashes b) : ¬ i < j := by
    intro hlt
    have hreported := (isReported_iff_clashes hb.record).2
      ⟨i, a, hlt, ha.record, ha.unreported, hclash⟩
    rw [hb.unreported] at hreported
    cases hreported
  have hij := hlater ha hb hclash
  have hji := hlater hb ha hclash.symm
  omega

/-- Recording uses keeps what a record declared. -/
theorem SameDeclarations.hasEntryOf {t t' : LabelTable} (h : t.SameDeclarations t') {key : Key}
    (hentry : t.get? key = some r.entry) : t'.HasEntryOf key r := by
  have hsame := h.entry key
  rw [hentry] at hsame
  obtain ⟨e, he, hunused⟩ := Option.map_eq_some_iff.1 hsame
  have haddress := congrArg Entry.address hunused
  have hscope := congrArg Entry.scope hunused
  have hdefinition := congrArg Entry.definition hunused
  exact ⟨e, he, haddress, hscope, hdefinition⟩

/-- The labels of records and pooled data, before uses are recorded. -/
def declarations (records generated : List Record) : LabelTable :=
  generated.foldl declareGenerated (records.foldl declare (empty, [])).1

theorem sameDeclarations_ofRecords (records generated : List Record) :
    (declarations records generated).SameDeclarations (ofRecords records generated).1 :=
  sameDeclarations_foldl_referToEntry
    (declarations records generated, (records.foldl declare (empty, [])).2) records

/-- The labels of pooled data are those of no record. -/
def AreFresh (generated records : List Record) : Prop :=
  ∀ g ∈ generated, ∀ r ∈ records, ∀ name, g.label = some name → r.label ≠ some name

/-- Pooled data overwrites nothing. -/
theorem AreFresh.get?_declarations (hfresh : AreFresh generated records)
    (h : DeclaresLabel records i r name) {key : Key} (hkey : r.entryKey? = some key) :
    (declarations records generated).get? key = some r.entry := by
  have hdeclared : (records.foldl declare (empty, [])).1.get? key = some r.entry :=
    ((registers_foldl_declare records).represents.entry _ _).2 ⟨r, h.mem_select, hkey, rfl⟩
  rw [declarations, get?_foldl_declareGenerated_of_ne, hdeclared]
  intro g hg hglobal
  obtain ⟨name', hname', rfl⟩ := Option.map_eq_some_iff.1 hglobal
  have hlabel := (Record.entryKey?_eq_global.1 hkey).1
  exact hfresh g hg r (List.mem_of_getElem? h.record) name' hname' hlabel

theorem AreFresh.hasEntryOf (hfresh : AreFresh generated records)
    (h : DeclaresLabel records i r name) {key : Key} (hkey : r.entryKey? = some key) :
    (ofRecords records generated).1.HasEntryOf key r :=
  (sameDeclarations_ofRecords records generated).hasEntryOf (hfresh.get?_declarations h hkey)

theorem redirection?_ofRecords (generated : List Record) (h : DeclaresLabel records i r name)
    {target : String} (hd : r.declaration = .redirection target) :
    (ofRecords records generated).1.redirection? name = some (r.redirection target) := by
  rw [(sameDeclarations_ofRecords records generated).redirection, declarations,
    redirection?_foldl_declareGenerated]
  exact ((registers_foldl_declare records).represents.redirection _ _).2
    ⟨r, h.mem_select, target, h.label, hd, rfl⟩

theorem AreFresh.labelCount_ofRecords (hfresh : AreFresh generated records)
    (hdistinct : (generated.filterMap (·.label)).Nodup) :
    (ofRecords records generated).1.labelCount =
      ((select false records).filterMap (·.label)).length +
        (generated.filterMap (·.label)).length := by
  have hregisters := registers_foldl_declare records
  have hkeys := sameKeys_foldl_note .ofStart (declarations records generated)
    (records.filterMap Record.entryUse?)
  have hnew : ∀ name ∈ generated.filterMap (·.label),
      (records.foldl declare (empty, [])).1.get? (.global name) = none := by
    intro name hname
    obtain ⟨g, hg, hname⟩ := List.mem_filterMap.1 hname
    apply hregisters.represents.get?_global_eq_none
    intro a ha
    obtain ⟨i, ha, -⟩ := LabelTable.mem_select.1 ha
    exact hfresh g hg a (List.mem_of_getElem? ha) name hname
  rw [ofRecords_eq, foldl_referToEntry_eq, ← declarations, hkeys.labelCount_eq, declarations,
    labelCount_foldl_declareGenerated hdistinct hnew, hregisters.count]

/-- A label is reported exactly if it is declared before, in the same scope or by another start. -/
theorem isReported_iff_declaresLabel (hr : records[i]? = some r) (hname : r.label = some name) :
    isReported records i = true ↔ ∃ j a, j < i ∧ DeclaresLabel records j a name ∧
      (a.scope = r.scope ∨ a.IsStart ∧ r.IsStart) := by
  rw [isReported_iff_clashes hr]
  constructor
  · rintro ⟨j, a, hj, ha, hunreported, name', hlabel, hname', hor⟩
    obtain rfl : name' = name := Option.some.inj (hname'.symm.trans hname)
    rw [Record.declaration_ne_inScope, Record.declaration_ne_inScope] at hor
    exact ⟨j, a, hj, ⟨ha, hlabel, hunreported⟩, hor⟩
  · rintro ⟨j, a, hj, ⟨ha, hlabel, hunreported⟩, hor⟩
    rw [← Record.declaration_ne_inScope, ← Record.declaration_ne_inScope] at hor
    exact ⟨j, a, hj, ha, hunreported, name, hlabel, hname, hor⟩

/-- The labels of pooled data are never overwritten. -/
theorem exists_pooled_entry (records : List Record)
    (hdistinct : (generated.filterMap (·.label)).Nodup) {g : Record} (hg : g ∈ generated)
    (hname : g.label = some name) : ∃ e, (ofRecords records generated).1.get? (.global name) =
      some e ∧ e.address = g.address ∧ e.definition = none := by
  have hentry : (declarations records generated).get? (.global name) =
      some ⟨g.address, g.scope, none, []⟩ := get?_foldl_declareGenerated hdistinct hg hname
  have hsame := (sameDeclarations_ofRecords records generated).entry (.global name)
  rw [hentry] at hsame
  obtain ⟨e, he, hunused⟩ := Option.map_eq_some_iff.1 hsame
  exact ⟨e, he, congrArg Entry.address hunused, congrArg Entry.definition hunused⟩

/-- The first declaration of a label wins, and nothing is lost. Whatever the records are, a label
is reported exactly if it is declared before, and every other label has a place of its own in the
finished table. -/
theorem isRegistered_ofRecords (hdistinct : (generated.filterMap (·.label)).Nodup)
    (hfresh : AreFresh generated records) :
    IsRegistered records generated (ofRecords records generated) := by
  constructor
  case reports =>
    rw [ofRecords_eq, foldl_referToEntry_eq, (registers_foldl_declare records).reports]
    refine ⟨_, rfl, fun d hd => ?_⟩
    obtain ⟨u, -, rfl⟩ := List.mem_map.1 hd
    exact ⟨u.name, rfl⟩
  case isReported_iff =>
    intro i r name hr hname
    exact isReported_iff_declaresLabel hr hname
  case inScope =>
    intro i r name h hstart
    apply hfresh.hasEntryOf h
    exact Record.entryKey?_eq_inScope.2 ⟨h.label, Record.declaration_eq_inScope.2 hstart, rfl⟩
  case global =>
    intro i r name h hstart hsymbol
    apply hfresh.hasEntryOf h
    refine Record.entryKey?_eq_global.2 ⟨h.label, ?_⟩
    cases hd : r.declaration with
    | inScope => exact absurd hstart (Record.declaration_eq_inScope.1 hd)
    | redirection target =>
      obtain ⟨span, hbody⟩ := Record.declaration_eq_redirection.1 hd
      exact absurd hbody (hsymbol target span)
    | global => rfl
  case redirection =>
    intro i r name target span h hbody
    exact redirection?_ofRecords generated h (Record.declaration_eq_redirection.2 ⟨span, hbody⟩)
  case own_entry =>
    intro i j a b name name' key ha hb hkey hkey'
    exact ha.eq_of_clashes hb (Record.clashes_of_entryKey? hkey hkey')
  case own_redirection =>
    intro i j a b name target target' span span' ha hb hbody hbody'
    refine ha.eq_of_clashes hb ⟨name, ha.label, hb.label, .inr ⟨?_, ?_⟩⟩
    · exact Record.declaration_ne_inScope.2 ⟨_, hbody⟩
    · exact Record.declaration_ne_inScope.2 ⟨_, hbody'⟩
  case pooled =>
    intro g hg name hname
    exact exists_pooled_entry records hdistinct hg hname
  case distinct => exact hasDistinctKeys_ofRecords records generated
  case count => exact hfresh.labelCount_ofRecords hdistinct

/-- Two subroutines of one name. The label of the second is reported, and so is the second `B` of
the first scope, but the one of the second scope is not. -/
def repeatedLabels : List Record :=
  [{ label := some "A", mnemonic := "START", body := .start (some (.symbol "B" ⟨8, 9⟩)),
      line := 0 },
    { label := some "B", mnemonic := "RET", body := .operation 0x81 none none none, line := 1 },
    { label := some "B", mnemonic := "DS", body := .labelOnly, line := 2, offset := 2 },
    { label := some "A", mnemonic := "START", body := .start none, line := 3, scope := 2,
      offset := 2 },
    { label := some "B", mnemonic := "DS", body := .labelOnly, line := 4, scope := 2, offset := 2 }]

theorem isRegistered_repeatedLabels :
    ([Record.pooledWord (some "=5") 1 5].filterMap (·.label)).Nodup ∧
      AreFresh [Record.pooledWord (some "=5") 1 5] repeatedLabels ∧
      (select true repeatedLabels).map (·.line) = [2, 3] ∧
      IsRegistered repeatedLabels [Record.pooledWord (some "=5") 1 5]
        (ofRecords repeatedLabels [Record.pooledWord (some "=5") 1 5]) := by
  have hdistinct : ([Record.pooledWord (some "=5") 1 5].filterMap (·.label)).Nodup := by decide
  have hfresh : AreFresh [Record.pooledWord (some "=5") 1 5] repeatedLabels := by
    simp [AreFresh, repeatedLabels, Record.pooledWord]
  have hselect : (select true repeatedLabels).map (·.line) = [2, 3] := by decide +kernel
  exact ⟨hdistinct, hfresh, hselect, isRegistered_ofRecords hdistinct hfresh⟩

end Finished

end LabelTable

end Comet
