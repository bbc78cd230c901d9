import Comet.LabelTable.OfRecords

/-!
# Declarations

A record declares its label in one of three ways, and two records clash if the same
name is declared twice in one scope or by two starts. `Represents` relates a label
table to the records that it was made from: it has an entry or a redirection for
each of their labels and nothing else. Declaring a label keeps this relation, and
the label of a record is taken exactly if the record clashes with an earlier one.
-/

namespace Comet

/-- The ways to declare a label. -/
inductive Declaration
  /-- The label stands for another one of its scope. -/
  | redirection (target : String)
  /-- The label is visible everywhere. -/
  | global
  /-- The label is visible in its scope. -/
  | inScope
  deriving DecidableEq, Repr

namespace Record

/-- How a record declares its label. -/
def declaration (r : Record) : Declaration :=
  match r.body with
  | .start (some (.symbol target _)) => .redirection target
  | .start _ => .global
  | _ => .inScope

/-- Two records that must not both declare their labels. -/
def Clashes (a b : Record) : Prop :=
  ∃ name, a.label = some name ∧ b.label = some name ∧
    (a.scope = b.scope ∨ a.declaration ≠ .inScope ∧ b.declaration ≠ .inScope)

/-- The key under which a record declares an address. -/
def entryKey? (r : Record) : Option LabelTable.Key :=
  r.label.bind fun name =>
    match r.declaration with
    | .redirection _ => none
    | .global => some (.global name)
    | .inScope => some (.inScope name r.scope)

/-- The entry that a record declares. -/
def entry (r : Record) : LabelTable.Entry :=
  { address := r.address, scope := r.scope, definition := some r.labelLocation, references := [] }

/-- The redirection that a record declares. -/
def redirection (r : Record) (target : String) : LabelTable.Redirection :=
  { target := .inScope target r.scope, scope := r.scope, definition := some r.labelLocation }

theorem entryKey?_eq_inScope {r : Record} {name : String} {scope : Nat} :
    r.entryKey? = some (.inScope name scope) ↔
      r.label = some name ∧ r.declaration = .inScope ∧ r.scope = scope := by
  rw [entryKey?]
  cases r.label with
  | none => simp
  | some n => cases r.declaration <;> simp [LabelTable.Key.inScope, LabelTable.Key.global]

theorem entryKey?_eq_global {r : Record} {name : String} :
    r.entryKey? = some (.global name) ↔ r.label = some name ∧ r.declaration = .global := by
  rw [entryKey?]
  cases r.label with
  | none => simp
  | some n => cases r.declaration <;> simp [LabelTable.Key.inScope, LabelTable.Key.global]

theorem entryKey?_of_redirection {r : Record} {target : String}
    (h : r.declaration = .redirection target) : r.entryKey? = none := by
  simp [entryKey?, h]

/-- Records that declare an address under the same key clash. -/
theorem clashes_of_entryKey? {a b : Record} {key : LabelTable.Key} (ha : a.entryKey? = some key)
    (hb : b.entryKey? = some key) : a.Clashes b := by
  obtain ⟨name, scope⟩ := key
  cases scope with
  | none =>
    obtain ⟨hname, hglobal⟩ := entryKey?_eq_global.1 ha
    obtain ⟨hname', hglobal'⟩ := entryKey?_eq_global.1 hb
    exact ⟨name, hname, hname', .inr ⟨by simp [hglobal], by simp [hglobal']⟩⟩
  | some scope =>
    obtain ⟨hname, -, hscope⟩ := entryKey?_eq_inScope.1 ha
    obtain ⟨hname', -, hscope'⟩ := entryKey?_eq_inScope.1 hb
    exact ⟨name, hname, hname', .inl (hscope.trans hscope'.symm)⟩

end Record

namespace LabelTable

/-- The table has what the records declare and nothing else. Records without a label
declare nothing. -/
structure Represents (t : LabelTable) (declared : List Record) : Prop where
  entry : ∀ key e, t.get? key = some e ↔
    ∃ r ∈ declared, r.entryKey? = some key ∧ r.entry = e
  redirection : ∀ name d, t.redirection? name = some d ↔
    ∃ r ∈ declared, ∃ target, r.label = some name ∧ r.declaration = .redirection target ∧
      r.redirection target = d

theorem represents_empty : empty.Represents [] where
  entry := by simp [empty, get?]
  redirection := by simp [empty, redirection?]

variable {t : LabelTable} {declared : List Record} {r : Record} {name : String}

theorem Represents.isGlobal_iff (h : t.Represents declared) (name : String) :
    t.isGlobal name = true ↔ ∃ a ∈ declared, a.label = some name ∧ a.declaration ≠ .inScope := by
  rw [isGlobal, Bool.or_eq_true, Option.isSome_iff_exists, Option.isSome_iff_exists]
  constructor
  · rintro (⟨e, he⟩ | ⟨d, hd⟩)
    · obtain ⟨a, ha, hkey, -⟩ := (h.entry _ _).1 he
      obtain ⟨hname, hglobal⟩ := Record.entryKey?_eq_global.1 hkey
      exact ⟨a, ha, hname, by simp [hglobal]⟩
    · obtain ⟨a, ha, target, hname, hredirection, -⟩ := (h.redirection _ _).1 hd
      exact ⟨a, ha, hname, by simp [hredirection]⟩
  · rintro ⟨a, ha, hname, hdeclaration⟩
    cases hd : a.declaration with
    | redirection target =>
      exact .inr ⟨_, (h.redirection _ _).2 ⟨a, ha, target, hname, hd, rfl⟩⟩
    | global =>
      exact .inl ⟨_, (h.entry _ _).2 ⟨a, ha, Record.entryKey?_eq_global.2 ⟨hname, hd⟩, rfl⟩⟩
    | inScope => exact absurd hd hdeclaration

theorem Represents.isDeclaredIn_iff (h : t.Represents declared) (name : String) (scope : Nat) :
    t.isDeclaredIn name scope = true ↔
      ∃ a ∈ declared, a.label = some name ∧ a.scope = scope := by
  rw [isDeclaredIn, Bool.or_eq_true, Bool.or_eq_true, Option.isSome_iff_exists,
    Option.any_eq_true, Option.any_eq_true]
  constructor
  · rintro ((⟨e, he⟩ | ⟨e, he, hscope⟩) | ⟨d, hd, hscope⟩)
    · obtain ⟨a, ha, hkey, -⟩ := (h.entry _ _).1 he
      obtain ⟨hname, -, hscope⟩ := Record.entryKey?_eq_inScope.1 hkey
      exact ⟨a, ha, hname, hscope⟩
    · obtain ⟨a, ha, hkey, rfl⟩ := (h.entry _ _).1 he
      exact ⟨a, ha, (Record.entryKey?_eq_global.1 hkey).1, beq_iff_eq.1 hscope⟩
    · obtain ⟨a, ha, target, hname, -, rfl⟩ := (h.redirection _ _).1 hd
      exact ⟨a, ha, hname, beq_iff_eq.1 hscope⟩
  · rintro ⟨a, ha, hname, hscope⟩
    cases hd : a.declaration with
    | redirection target =>
      exact .inr ⟨_, (h.redirection _ _).2 ⟨a, ha, target, hname, hd, rfl⟩,
        beq_iff_eq.2 hscope⟩
    | global =>
      exact .inl (.inr ⟨_, (h.entry _ _).2
        ⟨a, ha, Record.entryKey?_eq_global.2 ⟨hname, hd⟩, rfl⟩, beq_iff_eq.2 hscope⟩)
    | inScope =>
      exact .inl (.inl ⟨_, (h.entry _ _).2
        ⟨a, ha, Record.entryKey?_eq_inScope.2 ⟨hname, hd, hscope⟩, rfl⟩⟩)

theorem isTaken_eq (t : LabelTable) (name : String) (r : Record) :
    t.isTaken name r =
      (decide (r.declaration ≠ .inScope) && t.isGlobal name || t.isDeclaredIn name r.scope) := by
  rw [isTaken, Record.declaration]
  repeat' split
  all_goals simp_all

/-- A label is taken exactly if its record clashes with an earlier one. -/
theorem Represents.isTaken_iff (h : t.Represents declared) (hname : r.label = some name) :
    t.isTaken name r = true ↔ ∃ a ∈ declared, a.Clashes r := by
  rw [isTaken_eq, Bool.or_eq_true, Bool.and_eq_true, decide_eq_true_eq, h.isGlobal_iff,
    h.isDeclaredIn_iff]
  constructor
  · rintro (⟨hr, a, ha, hname', hdeclaration⟩ | ⟨a, ha, hname', hscope⟩)
    · exact ⟨a, ha, name, hname', hname, .inr ⟨hdeclaration, hr⟩⟩
    · exact ⟨a, ha, name, hname', hname, .inl hscope⟩
  · rintro ⟨a, ha, name', hname', hr, hclash⟩
    cases hname.symm.trans hr
    rcases hclash with hscope | ⟨hdeclaration, hr⟩
    · exact .inr ⟨a, ha, hname', hscope⟩
    · exact .inl ⟨hr, a, ha, hname', hdeclaration⟩

theorem addLabel_eq (t : LabelTable) (name : String) (r : Record) :
    t.addLabel name r =
      match r.declaration with
      | .redirection target => t.redirect name target r.scope (some r.labelLocation)
      | .global => t.insert (.global name) r.address r.scope (some r.labelLocation)
      | .inScope => t.insert (.inScope name r.scope) r.address r.scope (some r.labelLocation) := by
  rw [addLabel, Record.declaration]
  cases r.body with
  | start target =>
    cases target with
    | none => rfl
    | some operand => cases operand <;> rfl
  | _ => rfl

theorem addLabel_of_entryKey? {key : Key} (hname : r.label = some name)
    (hkey : r.entryKey? = some key) :
    t.addLabel name r = t.insert key r.address r.scope (some r.labelLocation) := by
  rw [Record.entryKey?, hname, Option.bind_some] at hkey
  rw [addLabel_eq]
  cases hd : r.declaration with
  | redirection target =>
    rw [hd] at hkey
    cases hkey
  | global =>
    rw [hd] at hkey
    cases hkey
    rfl
  | inScope =>
    rw [hd] at hkey
    cases hkey
    rfl

theorem exists_entryKey? (hname : r.label = some name)
    (hd : ∀ target, r.declaration ≠ .redirection target) : ∃ key, r.entryKey? = some key := by
  rw [Record.entryKey?, hname, Option.bind_some]
  cases h : r.declaration with
  | redirection target => exact absurd h (hd target)
  | global => exact ⟨_, rfl⟩
  | inScope => exact ⟨_, rfl⟩

/-- Declaring a label that is not taken adds what its record declares. -/
theorem Represents.addLabel (h : t.Represents declared) (hname : r.label = some name)
    (hfree : ∀ a ∈ declared, ¬ a.Clashes r) :
    (t.addLabel name r).Represents (declared ++ [r]) := by
  by_cases hd : ∃ target, r.declaration = .redirection target
  · obtain ⟨target, hd⟩ := hd
    rw [addLabel_eq, hd]
    have hkey : r.entryKey? = none := Record.entryKey?_of_redirection hd
    refine ⟨fun key e => ?_, fun name' d => ?_⟩
    · simp [h.entry, hkey, or_and_right, exists_or]
    · rw [redirection?_redirect]
      by_cases hn : name = name'
      · -- An earlier start of the same name would clash.
        subst hn
        have hnone : ¬ ∃ a ∈ declared, ∃ target, a.label = some name ∧
            a.declaration = .redirection target ∧ a.redirection target = d := by
          rintro ⟨a, ha, target', hname', hd', -⟩
          exact hfree a ha ⟨name, hname', hname, .inr ⟨by simp [hd'], by simp [hd]⟩⟩
        simp only [List.mem_append, List.mem_singleton, or_and_right, exists_or,
          exists_eq_left, hnone, false_or]
        simp [hname, hd, Record.redirection]
      · have hne : r.label ≠ some name' := by simpa [hname] using hn
        simp [hn, h.redirection, hne, or_and_right, exists_or]
  · have hd' : ∀ target, r.declaration ≠ .redirection target := fun target h => hd ⟨target, h⟩
    obtain ⟨key, hkey⟩ := exists_entryKey? hname hd'
    rw [addLabel_of_entryKey? hname hkey]
    refine ⟨fun key' e => ?_, fun name' d => ?_⟩
    · rw [get?_insert]
      by_cases hk : key = key'
      · subst hk
        have hnone : ¬ ∃ a ∈ declared, a.entryKey? = some key ∧ a.entry = e := by
          rintro ⟨a, ha, hkey', -⟩
          exact hfree a ha (Record.clashes_of_entryKey? hkey' hkey)
        simp only [List.mem_append, List.mem_singleton, or_and_right, exists_or,
          exists_eq_left, hnone, false_or]
        simp [hkey, Record.entry]
      · simp [hk, h.entry, hkey, or_and_right, exists_or]
    · simp [h.redirection, hd', or_and_right, exists_or]

/-- What declaring the label of a record does: nothing, a report or a declaration. -/
theorem Represents.declare_cases {state : Reported} (h : state.1.Represents declared)
    (r : Record) :
    ((declare state r).2 = state.2 ∧ (declare state r).1.Represents (declared ++ [r]) ∧
      ∀ a ∈ declared, ¬ a.Clashes r) ∨
    ∃ name a, r.label = some name ∧ a ∈ declared ∧ a.Clashes r ∧
      declare state r = (state.1, state.2 ++ [⟨r.labelLocation, .duplicateLabel name⟩]) := by
  rw [declare]
  cases hname : r.label with
  | none =>
    have hkey : r.entryKey? = none := by simp [Record.entryKey?, hname]
    refine .inl ⟨rfl, ⟨fun key e => ?_, fun name d => ?_⟩, ?_⟩
    · simp [h.entry, hkey, or_and_right, exists_or]
    · simp [h.redirection, hname, or_and_right, exists_or]
    · rintro a - ⟨name, -, hr, -⟩
      simp [hname] at hr
  | some name =>
    dsimp only
    split
    · rename_i htaken
      obtain ⟨a, ha, hclash⟩ := (h.isTaken_iff hname).1 htaken
      exact .inr ⟨name, a, rfl, ha, hclash, rfl⟩
    · rename_i hfree
      have hfree' : ∀ a ∈ declared, ¬ a.Clashes r := fun a ha hclash =>
        hfree ((h.isTaken_iff hname).2 ⟨a, ha, hclash⟩)
      exact .inl ⟨rfl, h.addLabel hname hfree', hfree'⟩

/-- If no label of a program is reported, its records do not clash and the table has
all of their labels. -/
theorem Represents.foldl_declare {state : Reported} {records : List Record}
    (h : state.1.Represents declared) (hpairwise : declared.Pairwise fun a b => ¬ a.Clashes b)
    (hnone : (records.foldl declare state).2 = []) :
    state.2 = [] ∧ (records.foldl declare state).1.Represents (declared ++ records) ∧
      (declared ++ records).Pairwise fun a b => ¬ a.Clashes b := by
  induction records generalizing state declared with
  | nil => simpa using ⟨hnone, h, hpairwise⟩
  | cons r records ih =>
    rw [List.foldl_cons] at hnone ⊢
    rcases h.declare_cases r with ⟨hsame, hrepresents, hfree⟩ | ⟨name, a, -, ha, hclash, hreport⟩
    · have hpairwise' : (declared ++ [r]).Pairwise fun a b => ¬ a.Clashes b := by
        refine List.pairwise_append.2 ⟨hpairwise, List.pairwise_singleton _ _, ?_⟩
        intro a ha b hb
        cases List.mem_singleton.1 hb
        exact hfree a ha
      obtain ⟨hstate, hrest⟩ := ih hrepresents hpairwise' hnone
      rw [hsame] at hstate
      simpa [hstate] using hrest
    · -- A report stays to the end, because the table is what it was before.
      have htable : (declare state r).1 = state.1 := by rw [hreport]
      obtain ⟨hstate, -⟩ := ih (htable ▸ h) hpairwise hnone
      simp [hreport] at hstate

/-- If the records of a program do not clash, no label is reported. -/
theorem Represents.foldl_declare_eq_nil {state : Reported} {records : List Record}
    (h : state.1.Represents declared)
    (hpairwise : (declared ++ records).Pairwise fun a b => ¬ a.Clashes b) (hstate : state.2 = []) :
    (records.foldl declare state).2 = [] := by
  induction records generalizing state declared with
  | nil => exact hstate
  | cons r records ih =>
    rw [List.foldl_cons]
    rcases h.declare_cases r with ⟨hsame, hrepresents, -⟩ | ⟨name, a, -, ha, hclash, -⟩
    · apply ih hrepresents
      · simpa using hpairwise
      · exact hsame.trans hstate
    · exact absurd hclash ((List.pairwise_append.1 hpairwise).2.2 a ha r (.head _))

end LabelTable

end Comet
