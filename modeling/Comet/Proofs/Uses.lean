import Comet.Proofs.LiteralPooling

/-!
# The uses of names

A name is used by a start, which names the entry of its subroutine, and by operands. Uses are
recorded in two passes that find the entry of a name in different ways: a start looks for a label
of its own scope, an operand for whatever the name stands for. Otherwise the passes are alike.
Each of them is a traversal of uses by `note`, and what it finds depends on the declarations only,
which no use changes. So every use can be looked up in the table before the traversal
(`references_foldl_note`, `foldl_referToEntry_eq`), and none of them gets lost
(`allReferences_foldl_note`).
-/

namespace Comet

/-- A use of a name at a place of the source. -/
structure Use where
  name : String
  scope : Nat
  place : Location
  deriving DecidableEq, Repr

/-- The report that the name is not declared. -/
def Use.report (u : Use) : Diagnostic := ⟨u.place, .undeclaredLabel u.name⟩

namespace Record

variable (r : Record)

/-- The use of a name by an operand of the record. -/
def use? : Operand → Option Use
  | .symbol name span => some ⟨name, r.scope, r.line, span⟩
  | _ => none

/-- The use of its entry by a start. -/
def entryUse? : Option Use := r.body.target?.bind r.use?

/-- The uses of names by the operands that are emitted, in order. -/
def uses : List Use := r.operands.filterMap r.use?

end Record

namespace LabelTable

/-- A way to find the entry of a use. -/
abbrev Search := LabelTable → Use → Option Key

namespace Search

/-- A start looks for a label of its own scope. -/
def ofStart : Search := fun t u => t.present? (.inScope u.name u.scope)

/-- An operand looks for what the name stands for. -/
def ofOperand : Search := fun t u => t.lookup? u.name u.scope

/-- The search depends on the declarations only, and it finds entries only. -/
structure IsLawful (find : Search) : Prop where
  congr : ∀ {t t' : LabelTable}, t.SameDeclarations t' → ∀ u, find t' u = find t u
  isSome_get? : ∀ {t : LabelTable} {u : Use} {key : Key}, find t u = some key →
    (t.get? key).isSome = true

end Search

theorem SameDeclarations.present?_eq {t t' : LabelTable} (h : t.SameDeclarations t') (key : Key) :
    t'.present? key = t.present? key := by
  rw [present?, present?, h.isSome_get?]

theorem SameDeclarations.lookup?_eq {t t' : LabelTable} (h : t.SameDeclarations t')
    (name : String) (scope : Nat) : t'.lookup? name scope = t.lookup? name scope := by
  simp only [lookup?, h.redirection, h.present?_eq]

theorem isSome_of_lookup? {t : LabelTable} {name : String} {scope : Nat} {key : Key}
    (h : t.lookup? name scope = some key) : (t.get? key).isSome = true := by
  rw [lookup?, Option.or_eq_some_iff, Option.or_eq_some_iff, Option.bind_eq_some_iff] at h
  rcases h with ⟨r, -, htarget⟩ | ⟨-, hlocal | ⟨-, hglobal⟩⟩
  · exact isSome_of_present? htarget
  · exact isSome_of_present? hlocal
  · exact isSome_of_present? hglobal

namespace Search

theorem isLawful_ofStart : IsLawful ofStart where
  congr := fun h _ => h.present?_eq _
  isSome_get? := isSome_of_present?

theorem isLawful_ofOperand : IsLawful ofOperand where
  congr := fun h _ => h.lookup?_eq _ _
  isSome_get? := isSome_of_lookup?

end Search

/-! ## Recording a use -/

/-- Records a use where the search leads, if it leads anywhere. -/
def note (find : Search) (t : LabelTable) (u : Use) : LabelTable :=
  ((find t u).bind fun key => t.referTo? key u.place).getD t

/-- The reports of the uses that lead nowhere. -/
def missing (find : Search) (t : LabelTable) (uses : List Use) : List Diagnostic :=
  (uses.filter fun u => (find t u).isNone).map Use.report

/-- The uses that an entry records. -/
def references (t : LabelTable) (key : Key) : List Location :=
  ((t.get? key).map (·.references)).getD []

/-- The uses that all entries record. -/
def allReferences (t : LabelTable) : List Location := t.entries.flatMap (·.2.references)

variable {find : Search} {t : LabelTable} {u : Use} {key : Key}

/-- What recording a use does. -/
theorem Search.IsLawful.note_cases (hfind : find.IsLawful) (t : LabelTable) (u : Use) :
    find t u = none ∧ note find t u = t ∨
      ∃ key e, find t u = some key ∧ t.get? key = some e ∧ note find t u = { t with
        entries := Assoc.modify key (fun e => { e with references := e.references ++ [u.place] })
          t.entries } := by
  rw [note]
  cases h : find t u with
  | none => exact .inl ⟨rfl, rfl⟩
  | some key =>
    obtain ⟨e, he⟩ := Option.isSome_iff_exists.1 (hfind.isSome_get? h)
    refine .inr ⟨key, e, rfl, he, ?_⟩
    rw [Option.bind_some, referTo?, modify?, he]
    rfl

/-- Whatever the search is, a use is recorded at most at one key. -/
theorem note_eq_or_referTo? (find : Search) (t : LabelTable) (u : Use) :
    note find t u = t ∨ ∃ key, t.referTo? key u.place = some (note find t u) := by
  rw [note]
  cases h : (find t u).bind fun key => t.referTo? key u.place with
  | none => exact .inl rfl
  | some t' =>
    obtain ⟨key, -, hkey⟩ := Option.bind_eq_some_iff.1 h
    exact .inr ⟨key, hkey⟩

theorem sameDeclarations_note (find : Search) (t : LabelTable) (u : Use) :
    t.SameDeclarations (note find t u) := by
  rcases note_eq_or_referTo? find t u with hsame | ⟨key, hkey⟩
  · rw [hsame]
    exact .refl t
  · exact sameDeclarations_of_referTo? hkey

theorem sameDeclarations_foldl_note (find : Search) (t : LabelTable) (uses : List Use) :
    t.SameDeclarations (uses.foldl (note find) t) :=
  .foldl (sameDeclarations_note find) t uses

theorem sameKeys_note (find : Search) (t : LabelTable) (u : Use) :
    t.SameKeys (note find t u) := by
  rcases note_eq_or_referTo? find t u with hsame | ⟨key, hkey⟩
  · rw [hsame]
    exact .refl t
  · exact sameKeys_of_referTo? hkey

theorem sameKeys_foldl_note (find : Search) (t : LabelTable) (uses : List Use) :
    t.SameKeys (uses.foldl (note find) t) := by
  induction uses generalizing t with
  | nil => exact .refl t
  | cons u uses ih => exact (sameKeys_note find t u).trans (ih (note find t u))

/-- A use comes last among those of its entry, and no other entry changes. -/
theorem Search.IsLawful.references_note (hfind : find.IsLawful) (t : LabelTable) (u : Use)
    (key : Key) : (note find t u).references key =
      t.references key ++ if find t u = some key then [u.place] else [] := by
  rcases hfind.note_cases t u with ⟨hnone, hnote⟩ | ⟨key', e, hsome, he, hnote⟩
  · simp [hnote, hnone]
  · rw [hnote, hsome, references, references, get?, Assoc.get?_modify, ← get?]
    by_cases hkey : key' = key
    · subst hkey
      simp [he]
    · simp [hkey]

/-- The uses that an entry records after a traversal are those before it and then those that lead
to the entry, in order. -/
theorem Search.IsLawful.references_foldl_note (hfind : find.IsLawful) (t : LabelTable)
    (uses : List Use) (key : Key) : (uses.foldl (note find) t).references key =
      t.references key ++ (uses.filter fun u => find t u = some key).map Use.place := by
  induction uses generalizing t with
  | nil => simp
  | cons u uses ih =>
    have hsame : ∀ u', find (note find t u) u' = find t u' :=
      hfind.congr (sameDeclarations_note find t u)
    rw [List.foldl_cons, ih, hfind.references_note, List.filter_cons]
    simp only [hsame]
    split <;> simp_all

theorem perm_flatMap_modify {f : Entry → Entry} {place : Location} {e : Entry}
    {entries : List (Key × Entry)} (h : Assoc.get? key entries = some e)
    (hf : (f e).references = e.references ++ [place]) :
    ((Assoc.modify key f entries).flatMap (·.2.references)).Perm
      (entries.flatMap (·.2.references) ++ [place]) := by
  induction entries with
  | nil => cases h
  | cons p entries ih =>
    obtain ⟨key', e'⟩ := p
    rw [Assoc.get?] at h
    rw [Assoc.modify]
    split at h
    · rename_i hkey
      cases h
      rw [if_pos hkey, List.flatMap_cons, List.flatMap_cons, hf, List.append_assoc,
        List.append_assoc]
      exact List.perm_append_comm.append_left _
    · rename_i hkey
      rw [if_neg hkey, List.flatMap_cons, List.flatMap_cons, List.append_assoc]
      exact (ih h).append_left _

/-- A use is recorded once in the whole table, if it leads anywhere. -/
theorem Search.IsLawful.allReferences_note (hfind : find.IsLawful) (t : LabelTable) (u : Use) :
    (note find t u).allReferences.Perm
      (t.allReferences ++ if (find t u).isSome then [u.place] else []) := by
  rcases hfind.note_cases t u with ⟨hnone, hnote⟩ | ⟨key, e, hsome, he, hnote⟩
  · simp [hnote, hnone]
  · rw [hnote, hsome]
    exact perm_flatMap_modify he rfl

/-- No use gets lost: the table records those that it recorded before and all that lead to an
entry. -/
theorem Search.IsLawful.allReferences_foldl_note (hfind : find.IsLawful) (t : LabelTable)
    (uses : List Use) : (uses.foldl (note find) t).allReferences.Perm
      (t.allReferences ++ (uses.filter fun u => (find t u).isSome).map Use.place) := by
  induction uses generalizing t with
  | nil => simp
  | cons u uses ih =>
    have hsame : ∀ u', find (note find t u) u' = find t u' :=
      hfind.congr (sameDeclarations_note find t u)
    refine (ih (note find t u)).trans ?_
    simp only [hsame]
    refine ((hfind.allReferences_note t u).append_right _).trans ?_
    rw [List.append_assoc, List.filter_cons]
    split <;> simp

/-! ## The two passes -/

/-- What a start does to the table and to the reports. -/
theorem referToEntry_eq (state : Reported) (r : Record) :
    referToEntry state r = (r.entryUse?.toList.foldl (note .ofStart) state.1,
      state.2 ++ missing .ofStart state.1 r.entryUse?.toList) := by
  rw [referToEntry]
  split
  · rename_i name span hbody
    have huse : r.entryUse? = some ⟨name, r.scope, r.line, span⟩ := by
      rw [Record.entryUse?, hbody]
      rfl
    rw [huse, Option.toList_some, List.foldl_cons, List.foldl_nil, note, missing]
    by_cases hsome : (state.1.get? (.inScope name r.scope)).isSome = true
    · simp [Search.ofStart, present?, referTo?, modify?, hsome]
    · simp [Search.ofStart, present?, referTo?, modify?, hsome, Use.report]
  · rename_i hbody
    have huse : r.entryUse? = none := by
      cases h : r.body with
      | start target =>
        cases target with
        | none => simp [Record.entryUse?, h, Body.target?]
        | some operand =>
          cases operand with
          | symbol name span => exact absurd h (hbody name span)
          | _ => simp [Record.entryUse?, h, Body.target?, Record.use?]
      | _ => simp [Record.entryUse?, h, Body.target?]
    simp [huse, missing]

theorem missing_congr (hfind : find.IsLawful) {t' : LabelTable} (h : t.SameDeclarations t')
    (uses : List Use) : missing find t' uses = missing find t uses := by
  simp only [missing, hfind.congr h]

theorem missing_flatMap {α : Type} (find : Search) (t : LabelTable) (f : α → List Use)
    (xs : List α) : missing find t (xs.flatMap f) = xs.flatMap fun x => missing find t (f x) := by
  simp [missing, List.filter_flatMap, List.map_flatMap]

theorem missing_append (find : Search) (t : LabelTable) (uses uses' : List Use) :
    missing find t (uses ++ uses') = missing find t uses ++ missing find t uses' := by
  simp [missing]

/-- The pass over the starts records the uses of entries. -/
theorem foldl_referToEntry_eq (state : Reported) (records : List Record) :
    records.foldl referToEntry state =
      ((records.filterMap Record.entryUse?).foldl (note .ofStart) state.1,
        state.2 ++ missing .ofStart state.1 (records.filterMap Record.entryUse?)) := by
  induction records generalizing state with
  | nil => simp [missing]
  | cons r records ih =>
    have huses : (r :: records).filterMap Record.entryUse? =
        r.entryUse?.toList ++ records.filterMap Record.entryUse? := by
      cases h : r.entryUse? <;> simp [h]
    -- What the first start records does not change what the others find.
    have hsame := sameDeclarations_foldl_note .ofStart state.1 r.entryUse?.toList
    rw [List.foldl_cons, ih, referToEntry_eq, huses, List.foldl_append, missing_append,
      missing_congr Search.isLawful_ofStart hsame, List.append_assoc]

theorem referBy_eq (r : Record) (t : LabelTable) (operand : Operand) :
    referBy r t operand = (r.use? operand).toList.foldl (note .ofOperand) t := by
  cases operand with
  | symbol name span => rfl
  | _ => rfl

/-- The pass over the operands records their uses of names. -/
theorem referByRecords_eq (t : LabelTable) (records : List Record) :
    t.referByRecords records = (records.flatMap Record.uses).foldl (note .ofOperand) t := by
  have hrecord (t : LabelTable) (r : Record) :
      t.referByRecord r = r.uses.foldl (note .ofOperand) t := by
    rw [referByRecord, Record.uses, List.foldl_filterMap]
    congr 1
    funext t operand
    rw [referBy_eq]
    cases r.use? operand <;> rfl
  rw [referByRecords, List.foldl_flatMap]
  congr 1
  funext t r
  exact hrecord t r

end LabelTable

/-! ## Resolving the uses of operands -/

namespace LabelTable

variable {t : LabelTable} {name : String} {scope : Nat}

theorem address?_of_lookup? {key : Key} {e : Entry} (h : t.lookup? name scope = some key)
    (he : t.get? key = some e) : t.address? name scope = some e.address := by
  rw [address?, h, Option.bind_some, he]
  rfl

theorem address?_eq_none_iff : t.address? name scope = none ↔ t.lookup? name scope = none := by
  constructor
  · intro hnone
    cases h : t.lookup? name scope with
    | none => rfl
    | some key =>
      obtain ⟨e, he⟩ := Option.isSome_iff_exists.1 (isSome_of_lookup? h)
      rw [address?_of_lookup? h he] at hnone
      cases hnone
  · intro hnone
    rw [address?, hnone]
    rfl

end LabelTable

/-- Whether the problem is a name without a declaration. -/
def Diagnostic.isUndeclared (d : Diagnostic) : Bool :=
  match d.kind with
  | .undeclaredLabel _ => true
  | _ => false

theorem Operand.filter_resolveProblem? (reading : AddressReading) (t : LabelTable) (r : Record)
    (operand : Operand) :
    (operand.resolveProblem? reading t r.line r.scope).toList.filter Diagnostic.isUndeclared =
      LabelTable.missing .ofOperand t (r.use? operand).toList := by
  cases operand with
  | resolved value => rfl
  | literal l span => rfl
  | symbol name span =>
    rw [resolveProblem?, Record.use?, LabelTable.missing]
    cases haddress : t.address? name r.scope with
    | none =>
      have hlookup := LabelTable.address?_eq_none_iff.1 haddress
      simp [LabelTable.Search.ofOperand, hlookup, Diagnostic.isUndeclared, Use.report]
    | some address =>
      have hlookup : t.lookup? name r.scope ≠ none := by
        intro hnone
        rw [LabelTable.address?_eq_none_iff.2 hnone] at haddress
        cases haddress
      dsimp only
      split <;> simp [LabelTable.Search.ofOperand, Diagnostic.isUndeclared, hlookup]

/-- Resolving reports the uses of names without a declaration. -/
theorem Record.filter_resolveProblems (reading : AddressReading) (t : LabelTable)
    (records : List Record) :
    (records.flatMap (Record.resolveProblems reading t)).filter Diagnostic.isUndeclared =
      LabelTable.missing .ofOperand t (records.flatMap Record.uses) := by
  rw [List.filter_flatMap, LabelTable.missing_flatMap]
  congr 1
  funext r
  rw [resolveProblems, uses, List.filterMap_eq_flatMap_toList, List.filterMap_eq_flatMap_toList,
    List.filter_flatMap, LabelTable.missing_flatMap]
  congr 1
  funext operand
  exact operand.filter_resolveProblem? reading t r

end Comet
