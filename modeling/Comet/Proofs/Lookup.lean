import Comet.Proofs.Declarations
import Comet.Resolution

/-!
# Looking up names

After its labels are declared, a table changes in two ways only: the labels of pooled
data are added, and uses are recorded. Recording a use keeps every declaration, so it
does not change what a name stands for. `address?_eq` gives the order of a lookup in
terms of the declarations alone. All keys of a table differ, and recording a use keeps
them too.
-/

namespace Comet.LabelTable

/-- The entry without its uses. -/
def Entry.unused (e : Entry) : Entry := { e with references := [] }

/-- Two tables that differ only in the uses that they record. -/
structure SameDeclarations (t t' : LabelTable) : Prop where
  entry : ∀ key, (t'.get? key).map Entry.unused = (t.get? key).map Entry.unused
  redirection : ∀ name, t'.redirection? name = t.redirection? name

namespace SameDeclarations

variable {t t' t'' : LabelTable}

theorem refl (t : LabelTable) : t.SameDeclarations t := ⟨fun _ => rfl, fun _ => rfl⟩

theorem trans (h : t.SameDeclarations t') (h' : t'.SameDeclarations t'') :
    t.SameDeclarations t'' :=
  ⟨fun key => (h'.entry key).trans (h.entry key),
    fun name => (h'.redirection name).trans (h.redirection name)⟩

theorem isSome_get? (h : t.SameDeclarations t') (key : Key) :
    (t'.get? key).isSome = (t.get? key).isSome := by
  simpa using congrArg Option.isSome (h.entry key)

/-- A traversal keeps the declarations if each of its steps does. -/
theorem foldl {α : Type} {f : LabelTable → α → LabelTable}
    (hf : ∀ (t : LabelTable) (a : α), t.SameDeclarations (f t a)) (t : LabelTable) (as : List α) :
    t.SameDeclarations (as.foldl f t) := by
  induction as generalizing t with
  | nil => exact refl t
  | cons a as ih => exact (hf t a).trans (ih (f t a))

end SameDeclarations

theorem sameDeclarations_of_referTo? {t t' : LabelTable} {key : Key} {place : Location}
    (h : t.referTo? key place = some t') : t.SameDeclarations t' := by
  rw [referTo?, modify?] at h
  split at h
  · cases h
    refine ⟨fun key' => ?_, fun _ => rfl⟩
    simp only [get?, Assoc.get?_modify]
    split
    · rw [Option.map_map]
      rfl
    · rfl
  · cases h

theorem sameDeclarations_referBy (r : Record) (t : LabelTable) (operand : Operand) :
    t.SameDeclarations (referBy r t operand) := by
  cases operand with
  | resolved value => exact .refl t
  | literal l span => exact .refl t
  | symbol name span =>
    rw [referBy]
    cases h : t.addReference? name r.scope ⟨r.line, span⟩ with
    | none => exact .refl t
    | some t' =>
      obtain ⟨key, -, hkey⟩ := Option.bind_eq_some_iff.1 h
      exact sameDeclarations_of_referTo? hkey

/-- Recording the uses of a program keeps the declarations. -/
theorem sameDeclarations_referByRecords (t : LabelTable) (records : List Record) :
    t.SameDeclarations (t.referByRecords records) :=
  .foldl (fun t r => .foldl (fun t operand => sameDeclarations_referBy r t operand) t r.operands)
    t records

/-- What recording the entry of a subroutine does: nothing, a use or a report. -/
theorem referToEntry_cases (state : Reported) (r : Record) :
    (state.1.SameDeclarations (referToEntry state r).1 ∧ (referToEntry state r).2 = state.2 ∧
      ∀ target, r.declaration = .redirection target →
        (state.1.get? (.inScope target r.scope)).isSome = true) ∨
    ∃ place target,
      referToEntry state r = (state.1, state.2 ++ [⟨place, .undeclaredLabel target⟩]) ∧
      r.declaration = .redirection target ∧
      (state.1.get? (.inScope target r.scope)).isSome = false := by
  rw [referToEntry, Record.declaration]
  split
  · rename_i name span hbody
    cases h : state.1.referTo? (.inScope name r.scope) ⟨r.line, span⟩ with
    | none =>
      refine .inr ⟨_, name, rfl, by rw [hbody], ?_⟩
      rw [referTo?, modify?] at h
      split at h
      · cases h
      · exact Bool.eq_false_iff.2 (by assumption)
    | some t =>
      refine .inl ⟨sameDeclarations_of_referTo? h, rfl, ?_⟩
      intro target htarget
      rw [hbody] at htarget
      cases htarget
      rw [referTo?, modify?] at h
      split at h
      · assumption
      · cases h
  · rename_i hbody
    refine .inl ⟨.refl _, rfl, ?_⟩
    intro target htarget
    split at htarget
    · rename_i hbody'
      exact absurd hbody' (hbody _ _)
    · cases htarget
    · cases htarget

/-- Looking for entries keeps the declarations, whether or not it finds them. -/
theorem sameDeclarations_foldl_referToEntry (state : Reported) (rs : List Record) :
    state.1.SameDeclarations (rs.foldl referToEntry state).1 := by
  induction rs generalizing state with
  | nil => exact .refl _
  | cons r rs ih =>
    refine SameDeclarations.trans ?_ (ih (referToEntry state r))
    rcases referToEntry_cases state r with ⟨hsame, -⟩ | ⟨_, _, hreport, -⟩
    · exact hsame
    · rw [hreport]
      exact .refl _

/-- If no entry of a subroutine is reported, every one of them is declared in its
own scope. -/
theorem foldl_referToEntry {state : Reported} {records : List Record}
    (hnone : (records.foldl referToEntry state).2 = []) :
    state.2 = [] ∧ state.1.SameDeclarations (records.foldl referToEntry state).1 ∧
      ∀ r ∈ records, ∀ target, r.declaration = .redirection target →
        (state.1.get? (.inScope target r.scope)).isSome = true := by
  induction records generalizing state with
  | nil => exact ⟨hnone, .refl _, by simp⟩
  | cons r records ih =>
    rw [List.foldl_cons] at hnone ⊢
    obtain ⟨hstate, hdeclarations, hentries⟩ := ih hnone
    rcases referToEntry_cases state r with ⟨hstep, hsame, hentry⟩ | ⟨place, target, hreport, -⟩
    · refine ⟨hsame ▸ hstate, hstep.trans hdeclarations, ?_⟩
      intro r' hr' target htarget
      rcases List.mem_cons.1 hr' with rfl | hr'
      · exact hentry target htarget
      · rw [← hstep.isSome_get?]
        exact hentries r' hr' target htarget
    · rw [hreport] at hstate
      simp at hstate

/-- If every entry of a subroutine is declared in its own scope, none is reported. -/
theorem foldl_referToEntry_eq_nil {state : Reported} {records : List Record}
    (hentries : ∀ r ∈ records, ∀ target, r.declaration = .redirection target →
      (state.1.get? (.inScope target r.scope)).isSome = true) (hstate : state.2 = []) :
    (records.foldl referToEntry state).2 = [] := by
  induction records generalizing state with
  | nil => exact hstate
  | cons r records ih =>
    rw [List.foldl_cons]
    rcases referToEntry_cases state r with ⟨hstep, hsame, -⟩ | ⟨-, target, -, htarget, hmissing⟩
    · apply ih
      · intro r' hr' target htarget
        rw [hstep.isSome_get?]
        exact hentries r' (.tail _ hr') target htarget
      · exact hsame.trans hstate
    · rw [hentries r (.head _) target htarget] at hmissing
      cases hmissing

/-! ## The labels of pooled data -/

theorem redirection?_declareGenerated (t : LabelTable) (r : Record) (name : String) :
    (t.declareGenerated r).redirection? name = t.redirection? name := by
  rw [declareGenerated]
  split <;> rfl

theorem get?_declareGenerated (t : LabelTable) (r : Record) (key : Key) :
    (t.declareGenerated r).get? key =
      if r.label.map Key.global = some key then some ⟨r.address, r.scope, none, []⟩
      else t.get? key := by
  rw [declareGenerated]
  cases r.label with
  | none => rfl
  | some name => simp [addGlobal]

theorem redirection?_foldl_declareGenerated (t : LabelTable) (generated : List Record)
    (name : String) :
    (generated.foldl declareGenerated t).redirection? name = t.redirection? name := by
  induction generated generalizing t with
  | nil => rfl
  | cons r generated ih => rw [List.foldl_cons, ih, redirection?_declareGenerated]

theorem label_of_map_global {r : Record} {name : String}
    (h : r.label.map Key.global = some (.global name)) : r.label = some name := by
  obtain ⟨n, hn, hkey⟩ := Option.map_eq_some_iff.1 h
  cases hkey
  exact hn

/-- Other keys than those of the pooled data keep their entries. -/
theorem get?_foldl_declareGenerated_of_ne {t : LabelTable} {generated : List Record} {key : Key}
    (h : ∀ r ∈ generated, r.label.map Key.global ≠ some key) :
    (generated.foldl declareGenerated t).get? key = t.get? key := by
  induction generated generalizing t with
  | nil => rfl
  | cons r generated ih =>
    rw [List.foldl_cons, ih fun r hr => h r (.tail _ hr), get?_declareGenerated,
      if_neg (h r (.head _))]

/-- If the labels of the pooled data differ, each has its address. -/
theorem get?_foldl_declareGenerated {t : LabelTable} {generated : List Record}
    (hdistinct : (generated.filterMap (·.label)).Nodup) {r : Record} (hr : r ∈ generated)
    {name : String} (hname : r.label = some name) :
    (generated.foldl declareGenerated t).get? (.global name) =
      some ⟨r.address, r.scope, none, []⟩ := by
  obtain ⟨before, after, rfl⟩ := List.append_of_mem hr
  rw [List.foldl_append, List.foldl_cons, get?_foldl_declareGenerated_of_ne,
    get?_declareGenerated, if_pos (by rw [hname]; rfl)]
  intro r' hr' hkey
  -- A later record of the same name would repeat it among the labels.
  have hname' := label_of_map_global hkey
  rw [List.filterMap_append, List.filterMap_cons_some hname] at hdistinct
  have hnotin := (List.nodup_cons.1 (List.nodup_append.1 hdistinct).2.1).1
  exact hnotin (List.mem_filterMap.2 ⟨r', hr', hname'⟩)

/-- The labels of a program are declared first, then those of the pooled data, and then
the entries of subroutines are looked for. -/
theorem ofRecords_eq (records generated : List Record) :
    ofRecords records generated = records.foldl referToEntry
      (generated.foldl declareGenerated (records.foldl declare (.empty, [])).1,
        (records.foldl declare (.empty, [])).2) := rfl

/-! ## The order of a lookup -/

/-- The address of a key. -/
def addressOf? (t : LabelTable) (key : Key) : Option Nat := (t.get? key).map (·.address)

theorem SameDeclarations.addressOf?_eq {t t' : LabelTable} (h : t.SameDeclarations t') (key : Key) :
    t'.addressOf? key = t.addressOf? key := by
  have haddress := congrArg (Option.map Entry.address) (h.entry key)
  rwa [Option.map_map, Option.map_map] at haddress

theorem addressOf?_present? (t : LabelTable) (key : Key) :
    ((t.present? key).bind t.get?).map (·.address) = t.addressOf? key := by
  rw [present?, addressOf?]
  cases h : t.get? key <;> simp [h]

theorem isSome_of_present? {t : LabelTable} {key key' : Key} (h : t.present? key = some key') :
    (t.get? key').isSome = true := by
  rw [present?] at h
  split at h
  · cases h
    assumption
  · cases h

/-- The address of the first of two keys that is there. -/
theorem addressOf?_or {t : LabelTable} {a : Option Key} (b : Option Key)
    (ha : ∀ key ∈ a, (t.get? key).isSome = true) :
    ((a.or b).bind t.get?).map (·.address) =
      ((a.bind t.get?).map (·.address)).or ((b.bind t.get?).map (·.address)) := by
  cases a with
  | none => rfl
  | some key =>
    obtain ⟨e, he⟩ := Option.isSome_iff_exists.1 (ha key rfl)
    simp [he]

/-- A redirection comes first, then the scope, then what is visible everywhere. -/
theorem address?_eq (t : LabelTable) (name : String) (scope : Nat) :
    t.address? name scope =
      ((t.redirection? name).bind fun d => t.addressOf? d.target).or
        ((t.addressOf? (.inScope name scope)).or (t.addressOf? (.global name))) := by
  have htarget : ∀ key ∈ (t.redirection? name).bind fun d => t.present? d.target,
      (t.get? key).isSome = true := by
    intro key hkey
    obtain ⟨d, -, hpresent⟩ := Option.bind_eq_some_iff.1 hkey
    exact isSome_of_present? hpresent
  rw [address?, lookup?, addressOf?_or _ htarget,
    addressOf?_or _ fun key hkey => isSome_of_present? hkey, addressOf?_present?,
    addressOf?_present?]
  cases t.redirection? name with
  | none => rfl
  | some d => rw [Option.bind_some, Option.bind_some, addressOf?_present?]

/-! ## The keys of a table -/

/-- No key and no redirected name occurs twice. -/
structure HasDistinctKeys (t : LabelTable) : Prop where
  entries : (Assoc.keys t.entries).Nodup
  redirections : (Assoc.keys t.redirections).Nodup

/-- The number of labels, whether they have an address or are redirected. -/
def labelCount (t : LabelTable) : Nat := t.entries.length + t.redirections.length

/-- Two tables with the same keys in the same order. -/
structure SameKeys (t t' : LabelTable) : Prop where
  entries : Assoc.keys t'.entries = Assoc.keys t.entries
  redirections : t'.redirections = t.redirections

variable {t t' : LabelTable} {key : Key} {place : Location}

theorem hasDistinctKeys_empty : empty.HasDistinctKeys := ⟨.nil, .nil⟩

theorem HasDistinctKeys.insert (h : t.HasDistinctKeys) (key : Key) (address scope : Nat)
    (definition : Option Location) : (t.insert key address scope definition).HasDistinctKeys :=
  ⟨Assoc.nodup_keys_insert h.entries _ _, h.redirections⟩

theorem HasDistinctKeys.redirect (h : t.HasDistinctKeys) (name target : String) (scope : Nat)
    (definition : Option Location) : (t.redirect name target scope definition).HasDistinctKeys :=
  ⟨h.entries, Assoc.nodup_keys_insert h.redirections _ _⟩

theorem HasDistinctKeys.mem_entries_iff (h : t.HasDistinctKeys) {e : Entry} :
    (key, e) ∈ t.entries ↔ t.get? key = some e :=
  (Assoc.get?_eq_some_iff h.entries).symm

theorem labelCount_insert (h : t.get? key = none) (address scope : Nat)
    (definition : Option Location) :
    (t.insert key address scope definition).labelCount = t.labelCount + 1 := by
  have hlength := Assoc.length_insert_of_get?_eq_none h
    ({ address, scope, definition, references := [] } : Entry)
  dsimp only [labelCount, insert]
  omega

theorem labelCount_redirect {name : String} (h : t.redirection? name = none) (target : String)
    (scope : Nat) (definition : Option Location) :
    (t.redirect name target scope definition).labelCount = t.labelCount + 1 := by
  have hlength := Assoc.length_insert_of_get?_eq_none h
    ({ target := .inScope target scope, scope, definition } : Redirection)
  dsimp only [labelCount, redirect]
  omega

namespace SameKeys

theorem refl (t : LabelTable) : t.SameKeys t := ⟨rfl, rfl⟩

theorem trans {t'' : LabelTable} (h : t.SameKeys t') (h' : t'.SameKeys t'') : t.SameKeys t'' :=
  ⟨h'.entries.trans h.entries, h'.redirections.trans h.redirections⟩

theorem hasDistinctKeys (h : t.SameKeys t') (ht : t.HasDistinctKeys) : t'.HasDistinctKeys := by
  refine ⟨?_, ?_⟩
  · rw [h.entries]
    exact ht.entries
  · rw [h.redirections]
    exact ht.redirections

theorem labelCount_eq (h : t.SameKeys t') : t'.labelCount = t.labelCount := by
  rw [labelCount, labelCount, ← Assoc.length_keys, h.entries, h.redirections, Assoc.length_keys]

end SameKeys

theorem sameKeys_of_referTo? (h : t.referTo? key place = some t') : t.SameKeys t' := by
  rw [referTo?, modify?] at h
  split at h
  · cases h
    exact ⟨Assoc.keys_modify _ _ _, rfl⟩
  · cases h

end Comet.LabelTable
