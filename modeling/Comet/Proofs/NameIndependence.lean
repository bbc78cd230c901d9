import Comet.Proofs.Renaming

/-!
# Names are not observable

The names of a source text can be replaced by others. If different names stay different
and none becomes the name of a literal, the image is the same, and where something is
wrong with a name the same is wrong with its new name (`encoded_renamed`).

A function that renames the names of one program need not be injective elsewhere, so it
is first extended to all names (`extend`). That the extension does not matter rests on
two facts: only names of the source are ever reported, and the names of literals, which
are not renamed, always have an address.
-/

namespace Comet

theorem Operand.renamed_congr {f g : String → String} {operand : Operand}
    (h : ∀ name ∈ operand.name?, f name = g name) : operand.renamed f = operand.renamed g := by
  cases operand with
  | symbol name span => exact congrArg (symbol · span) (h name rfl)
  | resolved value => rfl
  | literal l span => rfl

theorem Body.renamed_congr {f g : String → String} {b : Body}
    (h : ∀ operand ∈ b.operands ++ b.target?.toList, operand.renamed f = operand.renamed g) :
    b.renamed f = b.renamed g := by
  cases b with
  | operation code r1 r2 adr =>
    cases adr with
    | none => rfl
    | some adr => simp [renamed, mapOperands, h adr (.head _)]
  | transfer code buffer length =>
    simp [renamed, mapOperands, h buffer (.head _), h length (.tail _ (.head _))]
  | data value => simp [renamed, mapOperands, h value (.head _)]
  | start target =>
    cases target with
    | none => rfl
    | some target => simp [renamed, h target (.head _)]
  | finish => rfl
  | labelOnly => rfl

namespace Record

theorem mem_names_of_label {r : Record} {name : String} (h : r.label = some name) :
    name ∈ r.names :=
  List.mem_append_left _ (Option.mem_toList.2 h)

theorem mem_names_of_operand {r : Record} {operand : Operand} {name : String}
    (h : operand ∈ r.operands ++ r.body.target?.toList) (hname : operand.name? = some name) :
    name ∈ r.names :=
  List.mem_append_right _ (List.mem_filterMap.2 ⟨operand, h, hname⟩)

/-- The record has the name as its label or as the entry of its subroutine. -/
def Introduces (r : Record) (name : String) : Prop :=
  r.label = some name ∨ r.declaration = .redirection name

theorem Introduces.mem_names {r : Record} {name : String} (h : r.Introduces name) :
    name ∈ r.names := by
  rcases h with hlabel | hentry
  · exact mem_names_of_label hlabel
  · obtain ⟨span, hbody⟩ := declaration_eq_redirection.1 hentry
    have hmem : .symbol name span ∈ r.operands ++ r.body.target?.toList := by
      rw [hbody]
      exact List.mem_append_right _ (.head _)
    exact mem_names_of_operand hmem rfl

theorem renamed_congr {f g : String → String} {r : Record}
    (h : ∀ name ∈ r.names, f name = g name) : r.renamed f = r.renamed g := by
  have hlabel : r.label.map f = r.label.map g :=
    Option.map_congr fun name hname => h name (mem_names_of_label hname)
  have hbody : r.body.renamed f = r.body.renamed g :=
    Body.renamed_congr fun operand hoperand =>
      Operand.renamed_congr fun name hname => h name (mem_names_of_operand hoperand hname)
  rw [renamed, renamed, hlabel, hbody]

end Record

/-! ## Names that are reported -/

/-- A name is left as it is exactly if it has no address. -/
theorem Operand.resolve_eq_symbol {reading : AddressReading} {t : LabelTable} {scope : Nat}
    {operand : Operand} {name : String} {span : Span} :
    operand.resolve reading t scope = .symbol name span ↔
      operand = .symbol name span ∧ t.address? name scope = none := by
  cases operand with
  | resolved value => simp [resolve]
  | literal l span' => simp [resolve]
  | symbol name' span' =>
    rw [resolve]
    cases h : t.address? name' scope with
    | none => grind
    | some address => grind

namespace Diagnostic.Kind

/-- The name of which a problem of labels and names speaks. -/
def name? : Kind → Option String
  | duplicateLabel name => some name
  | undeclaredLabel name => some name
  | _ => none

theorem renamed_congr {f g : String → String} {kind : Kind}
    (h : ∀ name ∈ kind.name?, f name = g name) : kind.renamed f = kind.renamed g := by
  cases kind with
  | duplicateLabel name => exact congrArg duplicateLabel (h name rfl)
  | undeclaredLabel name => exact congrArg undeclaredLabel (h name rfl)
  | _ => rfl

end Diagnostic.Kind

namespace EncodingError

/-- The name of which an error speaks. -/
def name? : EncodingError → Option String
  | unresolved _ name => some name
  | overflow _ _ => none
  | noEntryPoint name => some name

theorem renamed_congr {f g : String → String} {line : Nat → Nat} {e : EncodingError}
    (h : ∀ name ∈ e.name?, f name = g name) : e.renamed f line = e.renamed g line := by
  cases e with
  | unresolved number name => exact congrArg (unresolved (line number)) (h name rfl)
  | overflow number value => rfl
  | noEntryPoint name => exact congrArg noEntryPoint (h name rfl)

end EncodingError

namespace LabelTable

/-- A step that reports only labels and entries of its record. -/
def ReportsNames (step : Reported → Record → Reported) : Prop :=
  ∀ state r, ∃ ds, (step state r).2 = state.2 ++ ds ∧
    ∀ d ∈ ds, ∀ name ∈ d.kind.name?, r.Introduces name

theorem ReportsNames.foldl {step : Reported → Record → Reported} (hstep : ReportsNames step)
    {P : String → Prop} {state : Reported}
    (h : ∀ d ∈ state.2, ∀ name ∈ d.kind.name?, P name) {rs : List Record}
    (hrs : ∀ r ∈ rs, ∀ name, r.Introduces name → P name) :
    ∀ d ∈ (rs.foldl step state).2, ∀ name ∈ d.kind.name?, P name := by
  induction rs generalizing state with
  | nil => exact h
  | cons r rs ih =>
    refine ih ?_ fun r hr => hrs r (.tail _ hr)
    obtain ⟨ds, hds, hnames⟩ := hstep state r
    rw [hds]
    refine List.forall_mem_append.2 ⟨h, fun d hd name hname => ?_⟩
    exact hrs r (.head _) name (hnames d hd name hname)

theorem reportsNames_declare : ReportsNames declare := by
  intro state r
  rw [declare]
  split
  · exact ⟨[], (List.append_nil _).symm, by simp⟩
  · rename_i name hname
    split
    · refine ⟨_, rfl, List.forall_mem_singleton.2 ?_⟩
      rintro _ ⟨⟩
      exact .inl hname
    · exact ⟨[], (List.append_nil _).symm, by simp⟩

theorem reportsNames_referToEntry : ReportsNames referToEntry := by
  intro state r
  rcases referToEntry_cases state r with ⟨-, hsame, -⟩ | ⟨place, target, hreport, htarget, -⟩
  · exact ⟨[], by rw [hsame, List.append_nil], by simp⟩
  · rw [hreport]
    refine ⟨_, rfl, List.forall_mem_singleton.2 ?_⟩
    rintro _ ⟨⟩
    exact .inr htarget

/-- Collecting the labels of a program reports only its labels and entries. -/
theorem introduces_of_ofRecords {P : String → Prop} {records : List Record}
    (h : ∀ r ∈ records, ∀ name, r.Introduces name → P name) (generated : List Record) :
    ∀ d ∈ (ofRecords records generated).2, ∀ name ∈ d.kind.name?, P name := by
  rw [ofRecords_eq]
  refine reportsNames_referToEntry.foldl ?_ h
  exact reportsNames_declare.foldl (by simp) h

end LabelTable

namespace Assembly

variable {scoping : Bool} {rs : List Record}

/-- The names of a program. -/
def names (rs : List Record) : List String := rs.flatMap Record.names

theorem mem_names_of_getElem? {i : Nat} {p : Record} {name : String} (hp : rs[i]? = some p)
    (h : name ∈ p.names) : name ∈ names rs :=
  List.mem_flatMap.2 ⟨p, List.mem_of_getElem? hp, h⟩

/-- A name without an address is a name of the source text. -/
theorem mem_names_of_unresolved (hrs : ∀ r ∈ rs, r.WellFormed) {r : Record}
    (hr : r ∈ (layout scoping rs).records) {name : String} {span : Span}
    (hoperand : .symbol name span ∈ r.operands)
    (hnone : (labels scoping rs).address? name r.scope = none) : name ∈ names rs := by
  obtain ⟨i, p, hp, rfl⟩ := exists_placed hr
  rcases mem_operands_placed hp hoperand with hsource | ⟨k, o, _, ho, hliteral⟩
  · exact mem_names_of_getElem? hp
      (Record.mem_names_of_operand (List.mem_append_left _ hsource) rfl)
  · cases hliteral
    obtain ⟨address, haddress⟩ := exists_address?_literalName scoping hrs ho
      (placed scoping rs i p).scope
    rw [hnone] at haddress
    cases haddress

/-- Only names of the source text are reported. -/
theorem mem_names_of_nameProblems (hrs : ∀ r ∈ rs, r.WellFormed) {d : Diagnostic}
    (hd : d ∈ nameProblems scoping rs) : ∀ name ∈ d.kind.name?, name ∈ names rs := by
  rcases List.mem_append.1 hd with hlabels | hresolving
  · refine LabelTable.introduces_of_ofRecords (P := (· ∈ names rs)) ?_ _ d hlabels
    intro r hr name hname
    obtain ⟨i, p, hp, rfl⟩ := exists_placed hr
    have hsource : p.Introduces name := by
      rwa [Record.Introduces, declaration_placed] at hname
    exact mem_names_of_getElem? hp hsource.mem_names
  · obtain ⟨r, hr, hproblem⟩ := List.mem_flatMap.1 hresolving
    obtain ⟨operand, hoperand, hproblem⟩ := List.mem_filterMap.1 hproblem
    cases operand with
    | resolved value => cases hproblem
    | literal l span => cases hproblem
    | symbol name span =>
      rw [Operand.resolveProblem?] at hproblem
      split at hproblem
      · split at hproblem
        · cases hproblem
        · cases hproblem
          rintro _ ⟨⟩
      · rename_i hnone
        cases hproblem
        rintro _ ⟨⟩
        exact mem_names_of_unresolved hrs hr hoperand hnone

/-- Encoding fails only with names of the source text. -/
theorem mem_names_of_encoded (hrs : ∀ r ∈ rs, r.WellFormed) {e : EncodingError}
    (h : encoded scoping rs = .error e) : ∀ name ∈ e.name?, name ∈ names rs := by
  intro name hname
  rcases Image.ofRecords_eq_error h with hentry | ⟨r, hr, operand, hoperand, hword⟩
  · obtain ⟨label, hlabel, rfl⟩ := Image.exists_label_of_entryPoint_eq_error hentry
    cases hname
    rw [label_head?_resolvedRecords, List.head?_eq_getElem?] at hlabel
    obtain ⟨p, hp, hlabel⟩ := Option.bind_eq_some_iff.1 hlabel
    exact mem_names_of_getElem? hp (Record.mem_names_of_label hlabel)
  · cases operand with
    | resolved value =>
      rw [Operand.word] at hword
      split at hword
      · cases hword
      · cases hword
        cases hname
    | literal l span => cases literal?_resolvedRecords scoping rs r hr _ hoperand
    | symbol name' span =>
      cases hword
      cases hname
      rcases List.mem_append.1 hr with hr | hr
      · obtain ⟨laidOut, hlaidOut, rfl⟩ := List.mem_map.1 hr
        rw [Record.resolve, Record.operands_mapOperands] at hoperand
        obtain ⟨named, hnamed, hresolve⟩ := List.mem_map.1 hoperand
        obtain ⟨rfl, hnone⟩ := Operand.resolve_eq_symbol.1 hresolve
        exact mem_names_of_unresolved hrs hlaidOut hnamed hnone
      · obtain ⟨value, -, hdata⟩ := exists_value_of_mem_generated hr
        rw [Record.operands, hdata] at hoperand
        cases List.mem_singleton.1 hoperand

end Assembly

/-! ## Renaming all names -/

namespace Renaming

variable (names : List String) (f : String → String)

/-- A text that is longer than the new names. -/
def pad : List Char :=
  List.replicate ((names.map fun name => (f name).length).max?.getD 0 + 1) '#'

/-- The function on the given names. Other names are kept, unless that would make them the
same as one of the new names. Then they are moved out of the way, together with those that
stand there already. -/
def extend (name : String) : String :=
  if name ∈ names then f name
  else if name ∈ names.map f ∨ pad names f <+: name.toList then
    String.ofList (pad names f ++ name.toList)
  else name

variable {names} {f}

theorem extend_of_mem {name : String} (h : name ∈ names) : extend names f name = f name :=
  if_pos h

theorem not_begins_with_pad {name : String} (h : name ∈ names) :
    ¬ pad names f <+: (f name).toList := by
  intro hpad
  have hle := hpad.length_le
  have hmax : (f name).length ≤ (names.map fun name => (f name).length).max?.getD 0 :=
    List.le_max?_getD_of_mem (List.mem_map.2 ⟨name, h, rfl⟩)
  rw [pad, List.length_replicate, String.length_toList] at hle
  omega

theorem extend_cases (name : String) :
    (name ∈ names ∧ extend names f name = f name) ∨
    (name ∉ names ∧ extend names f name = String.ofList (pad names f ++ name.toList)) ∨
    (name ∉ names.map f ∧ ¬ pad names f <+: name.toList ∧ extend names f name = name) := by
  rw [extend]
  split
  · exact .inl ⟨by assumption, rfl⟩
  · rename_i hmem
    split
    · exact .inr (.inl ⟨hmem, rfl⟩)
    · rename_i hmoved
      rw [not_or] at hmoved
      exact .inr (.inr ⟨hmoved.1, hmoved.2, rfl⟩)

theorem extend_injective (h : ∀ a ∈ names, ∀ b ∈ names, f a = f b → a = b) :
    Function.Injective (extend names f) := by
  have hpad (name : String) :
      pad names f <+: (String.ofList (pad names f ++ name.toList)).toList := by
    simp
  intro a b hab
  rcases extend_cases a with ⟨ha, hfa⟩ | ⟨-, hfa⟩ | ⟨ha, hpada, hfa⟩ <;>
    rcases extend_cases b with ⟨hb, hfb⟩ | ⟨-, hfb⟩ | ⟨hb, hpadb, hfb⟩ <;> rw [hfa, hfb] at hab
  · exact h a ha b hb hab
  · exact absurd (hab ▸ hpad b) (not_begins_with_pad ha)
  · exact absurd (hab ▸ List.mem_map_of_mem ha) hb
  · exact absurd (hab ▸ hpad a) (not_begins_with_pad hb)
  · have hlist := congrArg String.toList hab
    rw [String.toList_ofList, String.toList_ofList] at hlist
    exact String.toList_injective (List.append_cancel_left hlist)
  · exact absurd (hab ▸ hpad a) hpadb
  · exact absurd (hab ▸ List.mem_map_of_mem hb) ha
  · exact absurd (hab ▸ hpad b) hpada
  · exact hab

/-- The names of literals stay as they are. -/
theorem extend_literalName (hnames : ∀ a ∈ names, ∀ n, a ≠ LiteralPool.literalName n)
    (hfresh : ∀ a ∈ names, ∀ n, f a ≠ LiteralPool.literalName n) (n : Nat) :
    extend names f (LiteralPool.literalName n) = LiteralPool.literalName n := by
  have hmem : LiteralPool.literalName n ∉ names := fun h => hnames _ h n rfl
  have hmap : LiteralPool.literalName n ∉ names.map f := by
    intro h
    obtain ⟨a, ha, heq⟩ := List.mem_map.1 h
    exact hfresh a ha n heq
  have hpad : ¬ pad names f <+: (LiteralPool.literalName n).toList := by
    intro h
    rw [pad, List.replicate_succ, LiteralPool.literalName, String.toList_append] at h
    have hhead : '#' = 'l' := (List.cons_prefix_cons.1 h).1
    revert hhead
    decide
  rw [extend, if_neg hmem, if_neg (not_or.2 ⟨hmap, hpad⟩)]

/-- The renaming of one program as a renaming of all names. -/
def ofNames (h : ∀ a ∈ names, ∀ b ∈ names, f a = f b → a = b)
    (hnames : ∀ a ∈ names, ∀ n, a ≠ LiteralPool.literalName n)
    (hfresh : ∀ a ∈ names, ∀ n, f a ≠ LiteralPool.literalName n) : Renaming where
  name := extend names f
  line := id
  tokens := id
  injective := extend_injective h
  name_literalName := extend_literalName hnames hfresh
  tokens_nil := rfl

end Renaming

namespace Assembly

variable {rs : List Record}

theorem isLabelName_of_mem_names (hrs : ∀ r ∈ rs, r.WellFormed) {name : String}
    (h : name ∈ names rs) : IsLabelName name := by
  obtain ⟨r, hr, hname⟩ := List.mem_flatMap.1 h
  exact (hrs r hr).isLabelName hname

/-- If the names of a program are renamed, and different names stay different and do not
become names of literals, then the same problems are found under the new names, and the
image is the same or fails in the same way. -/
theorem encoded_renamed (hrs : ∀ r ∈ rs, IsRead r) {f : String → String}
    (hinjective : ∀ a ∈ names rs, ∀ b ∈ names rs, f a = f b → a = b)
    (hfresh : ∀ a ∈ names rs, ∀ n, f a ≠ LiteralPool.literalName n) (scoping : Bool) :
    (nameProblems scoping (rs.map (Record.renamed f))).map (·.kind) =
        (nameProblems scoping rs).map (fun d => d.kind.renamed f) ∧
      encoded scoping (rs.map (Record.renamed f)) =
        (encoded scoping rs).mapError (EncodingError.renamed f id) := by
  have hwell : ∀ r ∈ rs, r.WellFormed := fun r hr => (hrs r hr).wellFormed
  have hnames : ∀ a ∈ names rs, ∀ n, a ≠ LiteralPool.literalName n := by
    rintro a ha n rfl
    exact LiteralPool.not_isLabelName_literalName n (isLabelName_of_mem_names hwell ha)
  let ρ := Renaming.ofNames hinjective hnames hfresh
  have hname : ∀ a ∈ names rs, ρ.name a = f a := fun a ha => Renaming.extend_of_mem ha
  have hrecords : rs.map ρ.record = rs.map (Record.renamed f) := by
    refine List.map_congr_left fun r hr => Record.renamed_congr fun a ha => ?_
    exact hname a (List.mem_flatMap.2 ⟨r, hr, ha⟩)
  rw [← hrecords]
  constructor
  · rw [ρ.nameProblems_map scoping rs]
    refine List.map_congr_left fun d hd => Diagnostic.Kind.renamed_congr fun a ha => ?_
    exact hname a (mem_names_of_nameProblems hwell hd a ha)
  · rw [ρ.encoded_map scoping rs]
    cases hencoded : encoded scoping rs with
    | ok w => rfl
    | error e =>
      refine congrArg Except.error (EncodingError.renamed_congr fun a ha => ?_)
      exact hname a (mem_names_of_encoded hwell hencoded a ha)

/-- The function that exchanges two names. -/
def exchange (a b name : String) : String :=
  if name = a then b else if name = b then a else name

/-- Names of literals begin with a letter in lower case. -/
theorem ne_literalName_of_isUpper {name : String}
    (h : name.toList.head?.all Char.isUpper = true) (n : Nat) :
    name ≠ LiteralPool.literalName n := by
  rintro rfl
  rw [LiteralPool.literalName, String.toList_append] at h
  cases h

/-- The second subroutine jumps to the entry of the first one, which it can only do without
scoping. -/
def jumpToEntry : List String :=
  ["MAIN START LOOP", " RET", "LOOP LD GR1,='A',GR2", " END", "SUB START", " JUMP LOOP", " END"]

/-- The label of a subroutine and its entry change their names. Without scoping the program
keeps its image, and with scoping the name that is not declared is the new one. -/
theorem encoded_renamed_exchange :
    ∃ reading, readLines false jumpToEntry = .ok reading ∧
      (∀ a ∈ names reading.records, ∀ b ∈ names reading.records,
        exchange "MAIN" "LOOP" a = exchange "MAIN" "LOOP" b → a = b) ∧
      (∀ a ∈ names reading.records, ∀ n,
        exchange "MAIN" "LOOP" a ≠ LiteralPool.literalName n) ∧
      (nameProblems false (reading.records.map (Record.renamed (exchange "MAIN" "LOOP")))).map
        (·.kind) = [] ∧
      encoded false (reading.records.map (Record.renamed (exchange "MAIN" "LOOP"))) =
        .ok [1, 0, 0, 0, 0, 0, 0, 0, 0x8100, 0x1012, 5, 0x6400, 1, 0x41] ∧
      (nameProblems true (reading.records.map (Record.renamed (exchange "MAIN" "LOOP")))).map
        (·.kind) = [.undeclaredLabel "MAIN"] ∧
      encoded true (reading.records.map (Record.renamed (exchange "MAIN" "LOOP"))) =
        .error (.unresolved 5 "MAIN") := by
  have hrun : ∃ reading ∈ (readLines false jumpToEntry).toOption,
      names reading.records = ["MAIN", "LOOP", "LOOP", "SUB", "LOOP"] ∧
      (nameProblems false reading.records).map (·.kind) = [] ∧
      encoded false reading.records =
        .ok [1, 0, 0, 0, 0, 0, 0, 0, 0x8100, 0x1012, 5, 0x6400, 1, 0x41] ∧
      (nameProblems true reading.records).map (·.kind) = [.undeclaredLabel "LOOP"] ∧
      encoded true reading.records = .error (.unresolved 5 "LOOP") := by
    decide +kernel
  obtain ⟨reading, hread, hnames, hflat, himage, hkinds, herror⟩ := hrun
  replace hread := Traversal.toOption_eq_some.1 hread
  have hinjective : ∀ a ∈ names reading.records, ∀ b ∈ names reading.records,
      exchange "MAIN" "LOOP" a = exchange "MAIN" "LOOP" b → a = b := by
    rw [hnames]
    decide
  have hfresh : ∀ a ∈ names reading.records, ∀ n,
      exchange "MAIN" "LOOP" a ≠ LiteralPool.literalName n := by
    rw [hnames]
    have hupper : ∀ a ∈ ["MAIN", "LOOP", "LOOP", "SUB", "LOOP"],
        (exchange "MAIN" "LOOP" a).toList.head?.all Char.isUpper = true := by decide
    exact fun a ha n => ne_literalName_of_isUpper (hupper a ha) n
  have hrenamed := encoded_renamed (isRead_of_readLines hread) hinjective hfresh
  have hproblems (scoping : Bool) :
      (nameProblems scoping (reading.records.map (Record.renamed (exchange "MAIN" "LOOP")))).map
        (·.kind) = ((nameProblems scoping reading.records).map (·.kind)).map
          (Diagnostic.Kind.renamed (exchange "MAIN" "LOOP")) := by
    rw [(hrenamed scoping).1, List.map_map]
    rfl
  refine ⟨reading, hread, hinjective, hfresh, ?_, ?_, ?_, ?_⟩
  · rw [hproblems, hflat]
    rfl
  · rw [(hrenamed false).2, himage]
    rfl
  · rw [hproblems, hkinds]
    rfl
  · rw [(hrenamed true).2, herror]
    rfl

end Assembly

end Comet
