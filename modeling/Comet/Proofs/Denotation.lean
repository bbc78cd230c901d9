import Comet.Proofs.Encodable

/-!
# What a name denotes

`Denotes` says which record of a source text a name stands for, in terms of the
declarations in the text alone: a start with an entry redirects its label, then a
label of the scope counts, and then a start without an entry. If nothing is wrong with
the labels of a program, the label table agrees with this (`exists_denoted` and
`address?_of_denotes`), and a name denotes no two records (`denotes_unique`).
-/

namespace Comet

namespace Record

@[simp] theorem declaration_pooled (n : Nat) (r : Record) :
    (r.pooled n).declaration = r.declaration := by
  rw [declaration, declaration, pooled]
  cases r.body <;> rfl

/-- The record starts a subroutine. -/
def IsStart (r : Record) : Prop := ∃ target, r.body = .start target

theorem declaration_ne_inScope {r : Record} : r.declaration ≠ .inScope ↔ r.IsStart := by
  rw [declaration, IsStart]
  cases r.body with
  | start target =>
    cases target with
    | none => simp
    | some target => cases target <;> simp
  | _ => simp

theorem declaration_eq_inScope {r : Record} : r.declaration = .inScope ↔ ¬ r.IsStart := by
  rw [← declaration_ne_inScope, not_not]

theorem declaration_eq_redirection {r : Record} {target : String} :
    r.declaration = .redirection target ↔
      ∃ span, r.body = .start (some (.symbol target span)) := by
  rw [declaration]
  cases r.body with
  | start operand =>
    cases operand with
    | none => simp
    | some operand => cases operand <;> simp
  | _ => simp

theorem declaration_eq_global {r : Record} (h : r.WellFormed) :
    r.declaration = .global ↔ r.body = .start none := by
  rw [declaration]
  cases hbody : r.body with
  | start target =>
    cases target with
    | none => simp
    | some target =>
      obtain ⟨name, span, rfl, -⟩ := h.entry target hbody
      simp
  | _ => simp

end Record

namespace Assembly

variable {scoping : Bool} {rs : List Record}

/-- The record at a place of a source text declares the name in the given way. -/
def DeclaresAt (rs : List Record) (k : Nat) (name : String) (d : Declaration) : Prop :=
  ∃ r, rs[k]? = some r ∧ r.label = some name ∧ r.declaration = d

theorem DeclaresAt.declaration_eq {k : Nat} {name name' : String} {d d' : Declaration}
    (h : DeclaresAt rs k name d) (h' : DeclaresAt rs k name' d') : d = d' := by
  obtain ⟨r, hr, -, rfl⟩ := h
  obtain ⟨r', hr', -, rfl⟩ := h'
  cases hr.symm.trans hr'
  rfl

/-- The places that a name in a scope denotes. -/
inductive Denotes (scoping : Bool) (rs : List Record) (name : String) (scope : Nat) : Nat → Prop
  /-- The start of a subroutine redirects its label to its entry, in its own scope. -/
  | redirected {i k : Nat} {target : String} (start : DeclaresAt rs i name (.redirection target))
      (entry : DeclaresAt rs k target .inScope)
      (same : scopeAt scoping rs k = scopeAt scoping rs i) : Denotes scoping rs name scope k
  /-- Otherwise a label of the scope comes first. -/
  | inScope {k : Nat} (noStart : ∀ i target, ¬ DeclaresAt rs i name (.redirection target))
      (label : DeclaresAt rs k name .inScope) (same : scopeAt scoping rs k = scope) :
      Denotes scoping rs name scope k
  /-- Otherwise the label of a subroutine is visible everywhere. -/
  | global {k : Nat} {r : Record}
      (noStart : ∀ i target, ¬ DeclaresAt rs i name (.redirection target))
      (noLabel : ∀ j, DeclaresAt rs j name .inScope → scopeAt scoping rs j ≠ scope)
      (start : rs[k]? = some r) (label : r.label = some name) (body : r.body = .start none) :
      Denotes scoping rs name scope k

namespace Denotes

variable {name : String} {scope k : Nat}

theorem exists_record (h : Denotes scoping rs name scope k) : ∃ r, rs[k]? = some r := by
  cases h with
  | redirected _ entry => exact entry.imp fun _ hr => hr.1
  | inScope _ label => exact label.imp fun _ hr => hr.1
  | global _ _ start => exact ⟨_, start⟩

/-- Only the labels of starts and of the scope denote anything. -/
theorem exists_label (h : Denotes scoping rs name scope k) :
    ∃ j e, rs[j]? = some e ∧ e.label = some name ∧
      (e.IsStart ∨ scopeAt scoping rs j = scope) := by
  cases h with
  | @redirected i _ target start =>
    obtain ⟨e, he, hlabel, hd⟩ := start
    exact ⟨i, e, he, hlabel, .inl (Record.declaration_ne_inScope.1 (by simp [hd]))⟩
  | inScope _ label same =>
    obtain ⟨e, he, hlabel, -⟩ := label
    exact ⟨k, e, he, hlabel, .inr same⟩
  | global _ _ start label body => exact ⟨k, _, start, label, .inl ⟨none, body⟩⟩

end Denotes

theorem declaration_placed (i : Nat) (r : Record) :
    (placed scoping rs i r).declaration = r.declaration :=
  r.declaration_pooled _

/-- Declarations of a source text and of its layout are the same. -/
theorem declaresAt_iff (scoping : Bool) {k : Nat} {name : String} {d : Declaration} :
    DeclaresAt rs k name d ↔ ∃ r, (layout scoping rs).records[k]? = some r ∧
      r.label = some name ∧ r.declaration = d ∧ r.scope = scopeAt scoping rs k := by
  rw [getElem?_layout]
  constructor
  · rintro ⟨r, hr, hname, hd⟩
    exact ⟨_, Option.map_eq_some_iff.2 ⟨r, hr, rfl⟩, hname,
      (declaration_placed k r).trans hd, rfl⟩
  · rintro ⟨_, hlaidOut, hname, hd, -⟩
    obtain ⟨r, hr, rfl⟩ := Option.map_eq_some_iff.1 hlaidOut
    exact ⟨r, hr, hname, (declaration_placed k r).symm.trans hd⟩

theorem declaresAt_of_layout {k : Nat} {r : Record} (hr : (layout scoping rs).records[k]? = some r)
    {name : String} (hname : r.label = some name) :
    DeclaresAt rs k name r.declaration ∧ r.scope = scopeAt scoping rs k := by
  rw [getElem?_layout, Option.map_eq_some_iff] at hr
  obtain ⟨p, hp, rfl⟩ := hr
  exact ⟨⟨p, hp, hname, (declaration_placed k p).symm⟩, rfl⟩

theorem exists_declaresAt {r : Record} (hr : r ∈ (layout scoping rs).records) {name : String}
    (hname : r.label = some name) :
    ∃ k, (layout scoping rs).records[k]? = some r ∧ DeclaresAt rs k name r.declaration ∧
      r.scope = scopeAt scoping rs k := by
  obtain ⟨k, hk⟩ := List.mem_iff_getElem?.1 hr
  exact ⟨k, hk, declaresAt_of_layout hk hname⟩

/-- The labels of the laid out pooled data are the names of the literals. -/
theorem filterMap_label_layout (scoping : Bool) (hrs : ∀ r ∈ rs, r.WellFormed) :
    (layout scoping rs).generated.filterMap (·.label) =
      LiteralPool.literalNames (occurrences rs).length := by
  have hlabels : (layout scoping rs).generated.map (·.label) =
      (LiteralPool.ofRecords 0 rs).generated.map (·.label) :=
    Layout.map_place (fun _ _ => rfl) _ _
  rw [← LiteralPool.filterMap_label_generated (Occurrence.nonempty_literals hrs)]
  simpa [List.filterMap_map, Function.comp_def] using congrArg (List.filterMap id) hlabels

theorem isLabelName_of_mem_records (hrs : ∀ r ∈ rs, r.WellFormed) {r : Record}
    (hr : r ∈ (layout scoping rs).records) {name : String} (hname : r.label = some name) :
    IsLabelName name := by
  obtain ⟨i, p, hp, rfl⟩ := exists_placed hr
  exact (hrs p (List.mem_of_getElem? hp)).label name hname

/-- So they differ from all labels of the source text. -/
theorem not_isLabelName_of_mem_generated (hrs : ∀ r ∈ rs, r.WellFormed) {g : Record}
    (hg : g ∈ (layout scoping rs).generated) {name : String} (hname : g.label = some name) :
    ¬ IsLabelName name := by
  have hmem : name ∈ (layout scoping rs).generated.filterMap (·.label) :=
    List.mem_filterMap.2 ⟨g, hg, hname⟩
  rw [filterMap_label_layout scoping hrs] at hmem
  exact LiteralPool.not_isLabelName_of_mem hmem

/-! ## The label table of a program with valid labels -/

/-- The labels of the records alone. -/
def recordLabels (scoping : Bool) (rs : List Record) : LabelTable :=
  ((layout scoping rs).records.foldl LabelTable.declare (.empty, [])).1

/-- The labels of pooled data are global, so they hide no label of a scope. -/
theorem get?_inScope_foldl_declareGenerated (t : LabelTable) (generated : List Record)
    (name : String) (scope : Nat) :
    (generated.foldl LabelTable.declareGenerated t).get? (.inScope name scope) =
      t.get? (.inScope name scope) := by
  apply LabelTable.get?_foldl_declareGenerated_of_ne
  intro r _ hkey
  cases hlabel : r.label with
  | none => simp [hlabel] at hkey
  | some n => simp [hlabel, LabelTable.Key.global, LabelTable.Key.inScope] at hkey

/-- Nothing is wrong with labels that are declared once, if the entries of subroutines
are among them. -/
theorem wellDeclared_of_unique
    (hunique : ∀ i j name d d', DeclaresAt rs i name d → DeclaresAt rs j name d' →
      (scopeAt scoping rs i = scopeAt scoping rs j ∨ d ≠ .inScope ∧ d' ≠ .inScope) → i = j)
    (hentry : ∀ i r target, rs[i]? = some r → r.declaration = .redirection target →
      ∃ k, DeclaresAt rs k target .inScope ∧ scopeAt scoping rs k = scopeAt scoping rs i) :
    WellDeclared scoping rs := by
  have hpairwise : (layout scoping rs).records.Pairwise fun a b => ¬ a.Clashes b := by
    refine List.pairwise_iff_getElem.2 fun i j hi hj hlt hclash => ?_
    obtain ⟨name, hname, hname', hor⟩ := hclash
    obtain ⟨ha, hscope⟩ := declaresAt_of_layout (List.getElem?_eq_getElem hi) hname
    obtain ⟨hb, hscope'⟩ := declaresAt_of_layout (List.getElem?_eq_getElem hj) hname'
    rw [hscope, hscope'] at hor
    have heq := hunique i j name _ _ ha hb hor
    omega
  have hdeclare : ((layout scoping rs).records.foldl LabelTable.declare (.empty, [])).2 = [] := by
    apply LabelTable.Represents.foldl_declare_eq_nil LabelTable.represents_empty _ rfl
    exact hpairwise
  have hrepresents := (LabelTable.represents_empty.foldl_declare .nil hdeclare).2.1
  constructor
  rw [declaredLabels, LabelTable.ofRecords_eq]
  refine LabelTable.foldl_referToEntry_eq_nil (fun r hr target hd => ?_) hdeclare
  rw [get?_inScope_foldl_declareGenerated]
  -- The entry is declared at some place of the source text, so the table has it.
  obtain ⟨i, p, hp, rfl⟩ := exists_placed hr
  obtain ⟨k, hk, hscope⟩ := hentry i p target hp ((declaration_placed i p).symm.trans hd)
  obtain ⟨e, he, hlabel, hd', hscope'⟩ := (declaresAt_iff scoping).1 hk
  have hkey := Record.entryKey?_eq_inScope.2 ⟨hlabel, hd', hscope'.trans hscope⟩
  exact Option.isSome_iff_exists.2
    ⟨e.entry, (hrepresents.entry _ _).2 ⟨e, List.mem_of_getElem? he, hkey, rfl⟩⟩

namespace WellDeclared

variable (h : WellDeclared scoping rs)
include h

theorem foldl_declare :
    (recordLabels scoping rs).Represents (layout scoping rs).records ∧
      (layout scoping rs).records.Pairwise fun a b => ¬ a.Clashes b := by
  have hnone := h.declared
  rw [declaredLabels, LabelTable.ofRecords_eq] at hnone
  obtain ⟨hdeclare, -, -⟩ := LabelTable.foldl_referToEntry hnone
  exact (LabelTable.represents_empty.foldl_declare .nil hdeclare).2

theorem represents : (recordLabels scoping rs).Represents (layout scoping rs).records :=
  h.foldl_declare.1

/-- Records that clash are the same record. -/
theorem eq_of_clashes {i j : Nat} {a b : Record}
    (ha : (layout scoping rs).records[i]? = some a)
    (hb : (layout scoping rs).records[j]? = some b) (hclash : a.Clashes b) : i = j := by
  -- The earlier one of two records does not clash with the later one, and clashing is
  -- symmetric.
  have hpairwise := List.pairwise_iff_getElem.1 h.foldl_declare.2
  obtain ⟨hi, rfl⟩ := List.getElem?_eq_some_iff.1 ha
  obtain ⟨hj, rfl⟩ := List.getElem?_eq_some_iff.1 hb
  rcases Nat.lt_trichotomy i j with hlt | heq | hlt
  · exact absurd hclash (hpairwise i j hi hj hlt)
  · exact heq
  · obtain ⟨name, ha, hb, hor⟩ := hclash
    refine absurd ⟨name, hb, ha, ?_⟩ (hpairwise j i hj hi hlt)
    exact hor.imp Eq.symm And.symm

/-- A name is declared once in a scope, and by one start. -/
theorem declaresAt_unique {i j : Nat} {name : String} {d d' : Declaration}
    (hi : DeclaresAt rs i name d) (hj : DeclaresAt rs j name d')
    (hor : scopeAt scoping rs i = scopeAt scoping rs j ∨ d ≠ .inScope ∧ d' ≠ .inScope) :
    i = j := by
  obtain ⟨a, ha, hname, rfl, hscope⟩ := (declaresAt_iff scoping).1 hi
  obtain ⟨b, hb, hname', rfl, hscope'⟩ := (declaresAt_iff scoping).1 hj
  refine h.eq_of_clashes ha hb ⟨name, hname, hname', ?_⟩
  rw [hscope, hscope']
  exact hor

theorem sameDeclarations :
    ((layout scoping rs).generated.foldl LabelTable.declareGenerated
      (recordLabels scoping rs)).SameDeclarations (labels scoping rs) := by
  have hnone := h.declared
  rw [declaredLabels, LabelTable.ofRecords_eq] at hnone
  obtain ⟨-, hsame, -⟩ := LabelTable.foldl_referToEntry hnone
  exact hsame.trans (LabelTable.sameDeclarations_referByRecords _ _)

theorem redirection?_eq (name : String) :
    (labels scoping rs).redirection? name = (recordLabels scoping rs).redirection? name := by
  rw [h.sameDeclarations.redirection, LabelTable.redirection?_foldl_declareGenerated]

theorem addressOf?_inScope (name : String) (scope : Nat) :
    (labels scoping rs).addressOf? (.inScope name scope) =
      (recordLabels scoping rs).addressOf? (.inScope name scope) := by
  rw [h.sameDeclarations.addressOf?_eq, LabelTable.addressOf?, get?_inScope_foldl_declareGenerated]
  rfl

/-- The labels of a scope are those of its records. -/
theorem addressOf?_inScope_eq_some {name : String} {scope address : Nat} :
    (labels scoping rs).addressOf? (.inScope name scope) = some address ↔
      ∃ r ∈ (layout scoping rs).records, r.label = some name ∧ r.declaration = .inScope ∧
        r.scope = scope ∧ r.address = address := by
  rw [h.addressOf?_inScope, LabelTable.addressOf?, Option.map_eq_some_iff]
  constructor
  · rintro ⟨e, he, rfl⟩
    obtain ⟨r, hr, hkey, rfl⟩ := (h.represents.entry _ _).1 he
    obtain ⟨hname, hd, hscope⟩ := Record.entryKey?_eq_inScope.1 hkey
    exact ⟨r, hr, hname, hd, hscope, rfl⟩
  · rintro ⟨r, hr, hname, hd, hscope, rfl⟩
    have hkey := Record.entryKey?_eq_inScope.2 ⟨hname, hd, hscope⟩
    exact ⟨r.entry, (h.represents.entry _ _).2 ⟨r, hr, hkey, rfl⟩, rfl⟩

/-- The labels of the pooled data are global. -/
theorem addressOf?_generated (hrs : ∀ r ∈ rs, r.WellFormed) {g : Record}
    (hg : g ∈ (layout scoping rs).generated) {name : String} (hname : g.label = some name) :
    (labels scoping rs).addressOf? (.global name) = some g.address := by
  have hdistinct : ((layout scoping rs).generated.filterMap (·.label)).Nodup := by
    rw [filterMap_label_layout scoping hrs]
    exact LiteralPool.nodup_literalNames _
  rw [h.sameDeclarations.addressOf?_eq, LabelTable.addressOf?,
    LabelTable.get?_foldl_declareGenerated hdistinct hg hname]
  rfl

/-- A name of the pooled data stands for it in every scope. -/
theorem address?_generated (hrs : ∀ r ∈ rs, r.WellFormed) {g : Record}
    (hg : g ∈ (layout scoping rs).generated) {name : String} (hname : g.label = some name)
    (scope : Nat) : (labels scoping rs).address? name scope = some g.address := by
  have hnot := not_isLabelName_of_mem_generated hrs hg hname
  have hredirection : (labels scoping rs).redirection? name = none := by
    rw [h.redirection?_eq, Option.eq_none_iff_forall_not_mem]
    intro d hd
    obtain ⟨r, hr, target, hlabel, -⟩ := (h.represents.redirection _ _).1 hd
    exact hnot (isLabelName_of_mem_records hrs hr hlabel)
  have hscoped : (labels scoping rs).addressOf? (.inScope name scope) = none := by
    rw [Option.eq_none_iff_forall_not_mem]
    intro address haddress
    obtain ⟨r, hr, hlabel, -⟩ := h.addressOf?_inScope_eq_some.1 haddress
    exact hnot (isLabelName_of_mem_records hrs hr hlabel)
  rw [LabelTable.address?_eq, hredirection, hscoped, h.addressOf?_generated hrs hg hname]
  rfl

/-- The other global labels are those of starts without an entry. -/
theorem addressOf?_global_eq_some (hrs : ∀ r ∈ rs, r.WellFormed) {name : String} {address : Nat}
    (hname : IsLabelName name) :
    (labels scoping rs).addressOf? (.global name) = some address ↔
      ∃ r ∈ (layout scoping rs).records, r.label = some name ∧ r.declaration = .global ∧
        r.address = address := by
  have hfresh : ∀ g ∈ (layout scoping rs).generated,
      g.label.map LabelTable.Key.global ≠ some (.global name) := fun g hg hkey =>
    not_isLabelName_of_mem_generated hrs hg (LabelTable.label_of_map_global hkey) hname
  rw [h.sameDeclarations.addressOf?_eq, LabelTable.addressOf?,
    LabelTable.get?_foldl_declareGenerated_of_ne hfresh, Option.map_eq_some_iff]
  constructor
  · rintro ⟨e, he, rfl⟩
    obtain ⟨r, hr, hkey, rfl⟩ := (h.represents.entry _ _).1 he
    obtain ⟨hlabel, hd⟩ := Record.entryKey?_eq_global.1 hkey
    exact ⟨r, hr, hlabel, hd, rfl⟩
  · rintro ⟨r, hr, hlabel, hd, rfl⟩
    have hkey := Record.entryKey?_eq_global.2 ⟨hlabel, hd⟩
    exact ⟨r.entry, (h.represents.entry _ _).2 ⟨r, hr, hkey, rfl⟩, rfl⟩

theorem redirection?_eq_none (name : String) :
    (labels scoping rs).redirection? name = none ↔
      ∀ i target, ¬ DeclaresAt rs i name (.redirection target) := by
  rw [h.redirection?_eq, Option.eq_none_iff_forall_ne_some]
  constructor
  · intro hnone i target hi
    obtain ⟨r, hr, hlabel, hd, -⟩ := (declaresAt_iff scoping).1 hi
    exact hnone _ ((h.represents.redirection name _).2
      ⟨r, List.mem_of_getElem? hr, target, hlabel, hd, rfl⟩)
  · intro hnone d hd
    obtain ⟨r, hr, target, hlabel, hredirection, -⟩ := (h.represents.redirection _ _).1 hd
    obtain ⟨i, -, hi, -⟩ := exists_declaresAt hr hlabel
    exact hnone i target (hredirection ▸ hi)

theorem addressOf?_inScope_eq_none (name : String) (scope : Nat) :
    (labels scoping rs).addressOf? (.inScope name scope) = none ↔
      ∀ j, DeclaresAt rs j name .inScope → scopeAt scoping rs j ≠ scope := by
  rw [Option.eq_none_iff_forall_ne_some]
  constructor
  · intro hnone j hj hscope
    obtain ⟨r, hr, hlabel, hd, hscope'⟩ := (declaresAt_iff scoping).1 hj
    exact hnone _ (h.addressOf?_inScope_eq_some.2
      ⟨r, List.mem_of_getElem? hr, hlabel, hd, hscope'.trans hscope, rfl⟩)
  · intro hnone address haddress
    obtain ⟨r, hr, hlabel, hd, hscope, -⟩ := h.addressOf?_inScope_eq_some.1 haddress
    obtain ⟨j, -, hj, hscope'⟩ := exists_declaresAt hr hlabel
    exact hnone j (hd ▸ hj) (hscope'.symm.trans hscope)

/-- The entry of a subroutine is a label of its scope. -/
theorem exists_entry {r : Record} (hr : r ∈ (layout scoping rs).records) {target : String}
    (hd : r.declaration = .redirection target) :
    ∃ entry ∈ (layout scoping rs).records, entry.label = some target ∧
      entry.declaration = .inScope ∧ entry.scope = r.scope ∧
      (labels scoping rs).addressOf? (.inScope target r.scope) = some entry.address := by
  have hnone := h.declared
  rw [declaredLabels, LabelTable.ofRecords_eq] at hnone
  obtain ⟨-, -, hentries⟩ := LabelTable.foldl_referToEntry hnone
  have hsome : ((labels scoping rs).get? (.inScope target r.scope)).isSome :=
    (h.sameDeclarations.isSome_get? _).trans (hentries r hr target hd)
  obtain ⟨e, he⟩ := Option.isSome_iff_exists.1 hsome
  have haddress : (labels scoping rs).addressOf? (.inScope target r.scope) = some e.address := by
    rw [LabelTable.addressOf?, he]
    rfl
  obtain ⟨entry, hentry, hname, hd, hscope, heq⟩ := h.addressOf?_inScope_eq_some.1 haddress
  exact ⟨entry, hentry, hname, hd, hscope, heq ▸ haddress⟩

theorem exists_entryAt {i : Nat} {r : Record} (hr : rs[i]? = some r) {target : String}
    (hd : r.declaration = .redirection target) :
    ∃ k, DeclaresAt rs k target .inScope ∧ scopeAt scoping rs k = scopeAt scoping rs i := by
  obtain ⟨entry, hentry, hlabel, hd', hscope, -⟩ :=
    h.exists_entry (placed_mem_layout hr) ((declaration_placed i r).trans hd)
  obtain ⟨k, -, hk, hscope'⟩ := exists_declaresAt hentry hlabel
  exact ⟨k, hd' ▸ hk, hscope'.symm.trans hscope⟩

/-- The label of a start denotes a record in every scope, and any other label in its own. -/
theorem exists_denotes (hrs : ∀ r ∈ rs, r.WellFormed) {j : Nat} {e : Record} {name : String}
    {scope : Nat} (he : rs[j]? = some e) (hlabel : e.label = some name)
    (hor : e.IsStart ∨ scopeAt scoping rs j = scope) : ∃ k, Denotes scoping rs name scope k := by
  by_cases hstart : ∃ i target, DeclaresAt rs i name (.redirection target)
  · obtain ⟨i, target, s, hs, hlabel', hd⟩ := hstart
    obtain ⟨k, hk, hscope⟩ := h.exists_entryAt hs hd
    exact ⟨k, .redirected ⟨s, hs, hlabel', hd⟩ hk hscope⟩
  have hnoStart : ∀ i target, ¬ DeclaresAt rs i name (.redirection target) :=
    fun i target hi => hstart ⟨i, target, hi⟩
  by_cases hlocal : ∃ k, DeclaresAt rs k name .inScope ∧ scopeAt scoping rs k = scope
  · obtain ⟨k, hk, hscope⟩ := hlocal
    exact ⟨k, .inScope hnoStart hk hscope⟩
  have hglobal : e.declaration = .global := by
    cases hd : e.declaration with
    | redirection target => exact absurd ⟨e, he, hlabel, hd⟩ (hnoStart j target)
    | global => rfl
    | inScope =>
      rcases hor with hstart' | hscope
      · exact absurd hstart' (Record.declaration_eq_inScope.1 hd)
      · exact absurd ⟨j, ⟨e, he, hlabel, hd⟩, hscope⟩ hlocal
  have hbody := (Record.declaration_eq_global (hrs e (List.mem_of_getElem? he))).1 hglobal
  exact ⟨j, .global hnoStart (fun i hi hscope => hlocal ⟨i, hi, hscope⟩) he hlabel hbody⟩

/-- What a name stands for in the table is what it denotes in the source text. -/
theorem exists_denoted (hrs : ∀ r ∈ rs, r.WellFormed) {name : String} {scope address : Nat}
    (hname : IsLabelName name)
    (haddress : (labels scoping rs).address? name scope = some address) :
    ∃ k r, (layout scoping rs).records[k]? = some r ∧ Denotes scoping rs name scope k ∧
      r.address = address := by
  rw [LabelTable.address?_eq] at haddress
  -- The cases are those of a lookup. What an earlier case did not find is not declared.
  cases hredirection : (labels scoping rs).redirection? name with
  | some d =>
    rw [h.redirection?_eq] at hredirection
    obtain ⟨start, hstart, target, hlabel, hd, rfl⟩ :=
      (h.represents.redirection _ _).1 hredirection
    obtain ⟨entry, hentry, hlabel', hd', hscope, htarget⟩ := h.exists_entry hstart hd
    obtain ⟨i, -, hi, hscope_i⟩ := exists_declaresAt hstart hlabel
    obtain ⟨k, hk, hentry_k, hscope_k⟩ := exists_declaresAt hentry hlabel'
    refine ⟨k, entry, hk, ?_, ?_⟩
    · exact .redirected (hd ▸ hi) (hd' ▸ hentry_k)
        (hscope_k.symm.trans (hscope.trans hscope_i))
    · rw [h.redirection?_eq, hredirection] at haddress
      simpa [Record.redirection, htarget] using haddress
  | none =>
    have hnoStart := (h.redirection?_eq_none name).1 hredirection
    rw [hredirection, Option.bind_none, Option.none_or] at haddress
    cases hscoped : (labels scoping rs).addressOf? (.inScope name scope) with
    | some a =>
      obtain ⟨r, hr, hlabel, hd, hscope, rfl⟩ := h.addressOf?_inScope_eq_some.1 hscoped
      obtain ⟨k, hk, hdeclares, hscope_k⟩ := exists_declaresAt hr hlabel
      refine ⟨k, r, hk, ?_, ?_⟩
      · exact .inScope hnoStart (hd ▸ hdeclares) (hscope_k.symm.trans hscope)
      · simpa [hscoped] using haddress
    | none =>
      rw [hscoped, Option.none_or] at haddress
      obtain ⟨r, hr, hlabel, hd, rfl⟩ := (h.addressOf?_global_eq_some hrs hname).1 haddress
      obtain ⟨k, hk, ⟨p, hp, hlabel_p, hd_p⟩, -⟩ := exists_declaresAt hr hlabel
      have hbody := (Record.declaration_eq_global (hrs p (List.mem_of_getElem? hp))).1
        (hd_p.trans hd)
      have hnoLabel := (h.addressOf?_inScope_eq_none name scope).1 hscoped
      exact ⟨k, r, hk, .global hnoStart hnoLabel hp hlabel_p hbody, rfl⟩

/-- What a name denotes in the source text is what it stands for in the table. -/
theorem address?_of_denotes (hrs : ∀ r ∈ rs, r.WellFormed) {name : String} {scope k : Nat}
    (hk : Denotes scoping rs name scope k) {r : Record}
    (hr : (layout scoping rs).records[k]? = some r) :
    (labels scoping rs).address? name scope = some r.address := by
  have hmem := List.mem_of_getElem? hr
  have hplace {d : Declaration} {label : String} (hd : DeclaresAt rs k label d) :
      r.label = some label ∧ r.declaration = d ∧ r.scope = scopeAt scoping rs k := by
    obtain ⟨r', hr', hlabel⟩ := (declaresAt_iff scoping).1 hd
    cases hr.symm.trans hr'
    exact hlabel
  rw [LabelTable.address?_eq]
  cases hk with
  | @redirected i _ target start entry same =>
    obtain ⟨s, hs, hlabel, hd, hscope⟩ := (declaresAt_iff scoping).1 start
    have hredirection : (labels scoping rs).redirection? name = some (s.redirection target) := by
      rw [h.redirection?_eq]
      exact (h.represents.redirection _ _).2
        ⟨s, List.mem_of_getElem? hs, target, hlabel, hd, rfl⟩
    obtain ⟨hlabel', hd', hscope'⟩ := hplace entry
    have htarget : (labels scoping rs).addressOf? (.inScope target s.scope) = some r.address :=
      h.addressOf?_inScope_eq_some.2
        ⟨r, hmem, hlabel', hd', hscope'.trans (same.trans hscope.symm), rfl⟩
    simp [hredirection, Record.redirection, htarget]
  | inScope noStart label same =>
    obtain ⟨hlabel, hd, hscope⟩ := hplace label
    have haddress := h.addressOf?_inScope_eq_some.2 ⟨r, hmem, hlabel, hd, hscope.trans same, rfl⟩
    simp [(h.redirection?_eq_none name).2 noStart, haddress]
  | @global _ p noStart noLabel start label body =>
    have hd : p.declaration = .global := by rw [Record.declaration, body]
    have hname : IsLabelName name := (hrs p (List.mem_of_getElem? start)).label name label
    obtain ⟨hlabel', hd', -⟩ := hplace ⟨p, start, label, hd⟩
    have haddress := (h.addressOf?_global_eq_some hrs hname).2 ⟨r, hmem, hlabel', hd', rfl⟩
    simp [(h.redirection?_eq_none name).2 noStart,
      (h.addressOf?_inScope_eq_none name scope).2 noLabel, haddress]

/-- A name denotes at most one record. -/
theorem denotes_unique {name : String} {scope k k' : Nat} (hk : Denotes scoping rs name scope k)
    (hk' : Denotes scoping rs name scope k') : k = k' := by
  cases hk with
  | @redirected i _ target start entry same =>
    cases hk' with
    | @redirected i' _ target' start' entry' same' =>
      obtain rfl := h.declaresAt_unique start start' (.inr ⟨by simp, by simp⟩)
      cases start.declaration_eq start'
      exact h.declaresAt_unique entry entry' (.inl (same.trans same'.symm))
    | inScope noStart => exact absurd start (noStart _ _)
    | global noStart => exact absurd start (noStart _ _)
  | inScope noStart label same =>
    cases hk' with
    | redirected start' => exact absurd start' (noStart _ _)
    | inScope _ label' same' =>
      exact h.declaresAt_unique label label' (.inl (same.trans same'.symm))
    | global _ noLabel => exact absurd same (noLabel _ label)
  | @global _ r noStart noLabel start label body =>
    cases hk' with
    | redirected start' => exact absurd start' (noStart _ _)
    | inScope _ label' same' => exact absurd same' (noLabel _ label')
    | @global _ r' _ _ start' label' body' =>
      have hd : r.declaration = .global := by rw [Record.declaration, body]
      have hd' : r'.declaration = .global := by rw [Record.declaration, body']
      exact h.declaresAt_unique ⟨r, start, label, hd⟩ ⟨r', start', label', hd'⟩
        (.inr ⟨by simp, by simp⟩)

/-- A start without an entry is what its label denotes in its own scope. -/
theorem denotes_start {k : Nat} {r : Record} {name : String} (hr : rs[k]? = some r)
    (hname : r.label = some name) (hbody : r.body = .start none) :
    Denotes scoping rs name (scopeAt scoping rs k) k := by
  have hk : DeclaresAt rs k name .global :=
    ⟨r, hr, hname, by rw [Record.declaration, hbody]⟩
  refine .global ?_ ?_ hr hname hbody
  · intro i target hi
    obtain rfl := h.declaresAt_unique hi hk (.inr ⟨by simp, by simp⟩)
    cases hi.declaration_eq hk
  · intro j hj hscope
    obtain rfl := h.declaresAt_unique hj hk (.inl hscope)
    cases hj.declaration_eq hk

/-- The label of a start with an entry denotes that entry, wherever it is used. -/
theorem declaresAt_of_redirection {i k : Nat} {name target : String} {scope : Nat}
    (hi : DeclaresAt rs i name (.redirection target)) (hk : Denotes scoping rs name scope k) :
    DeclaresAt rs k target .inScope ∧ scopeAt scoping rs k = scopeAt scoping rs i := by
  cases hk with
  | @redirected i' _ target' start entry same =>
    obtain rfl := h.declaresAt_unique hi start (.inr ⟨by simp, by simp⟩)
    cases hi.declaration_eq start
    exact ⟨entry, same⟩
  | inScope noStart => exact absurd hi (noStart _ _)
  | global noStart => exact absurd hi (noStart _ _)

end WellDeclared

end Assembly

end Comet
