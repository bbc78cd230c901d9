import Comet.Proofs.EntryPoint

/-!
# Renaming the labels of a program

Names are only ever compared with one another. So a renaming that keeps different names
different, and leaves alone the names that pooling gives to literals, can be followed
through all phases of an assembly: the label tables of the two programs have the same
addresses under the old and the new names (`Relates`), and every step of collecting and
resolving labels keeps that.

Line numbers and tokens are followed along with the names, because they are as invisible
to the machine as the names are: they say where a diagnostic stands.
-/

namespace Comet

namespace Operand

/-- The operand with the new name of its label. -/
def renamed (f : String → String) : Operand → Operand
  | symbol name span => symbol (f name) span
  | operand => operand

@[simp] theorem literalCount_renamed (f : String → String) (operand : Operand) :
    (operand.renamed f).literalCount = operand.literalCount := by
  cases operand <;> rfl

@[simp] theorem literal?_pooled (n : Nat) (operand : Operand) :
    (operand.pooled n).literal? = none := by
  cases operand <;> rfl

@[simp] theorem literal?_resolve (reading : AddressReading) (t : LabelTable) (scope : Nat)
    (operand : Operand) : (operand.resolve reading t scope).literal? = operand.literal? := by
  cases operand with
  | symbol name span =>
    rw [resolve]
    cases t.address? name scope <;> rfl
  | resolved value => rfl
  | literal l span => rfl

end Operand

namespace Body

/-- The body with the new names of its labels. -/
def renamed (f : String → String) : Body → Body
  | start target => start (target.map (Operand.renamed f))
  | body => body.mapOperands (Operand.renamed f)

@[simp] theorem byteLength?_renamed (f : String → String) (b : Body) :
    (b.renamed f).byteLength? = b.byteLength? := by
  cases b <;> rfl

@[simp] theorem operands_renamed (f : String → String) (b : Body) :
    (b.renamed f).operands = b.operands.map (Operand.renamed f) := by
  cases b with
  | operation code r1 r2 adr => cases adr <;> rfl
  | _ => rfl

@[simp] theorem headWords_renamed (f : String → String) (b : Body) :
    (b.renamed f).headWords = b.headWords := by
  cases b <;> rfl

@[simp] theorem renamed_eq_finish (f : String → String) (b : Body) :
    b.renamed f = .finish ↔ b = .finish := by
  cases b <;> simp [renamed, mapOperands]

end Body

/-- The declaration with the new name of the label that it names. -/
def Declaration.renamed (f : String → String) : Declaration → Declaration
  | redirection target => redirection (f target)
  | declaration => declaration

theorem Declaration.renamed_eq_redirection {f : String → String} {d : Declaration}
    {target : String} :
    d.renamed f = .redirection target ↔ ∃ name, d = .redirection name ∧ f name = target := by
  cases d <;> simp [renamed]

/-- The record with the new names of its labels. -/
def Record.renamed (f : String → String) (r : Record) : Record :=
  { r with label := r.label.map f, body := r.body.renamed f }

namespace LabelTable

/-- The key with the new name of its label. -/
def Key.renamed (f : String → String) (key : Key) : Key := { key with name := f key.name }

theorem Key.renamed_injective {f : String → String} (h : Function.Injective f) :
    Function.Injective (renamed f) := by
  rintro ⟨name, scope⟩ ⟨name', scope'⟩ heq
  obtain ⟨hname, hscope⟩ := Key.mk.inj heq
  exact congrArg₂ Key.mk (h hname) hscope

end LabelTable

/-- New names for the labels of a program, and new line numbers and tokens. -/
structure Renaming where
  name : String → String
  line : Nat → Nat
  tokens : List Token → List Token
  injective : Function.Injective name
  name_literalName : ∀ n, name (LiteralPool.literalName n) = LiteralPool.literalName n
  tokens_nil : tokens [] = []

namespace Renaming

variable (ρ : Renaming)

/-- The record with the new names, line number and tokens. -/
def record (r : Record) : Record :=
  { r.renamed ρ.name with line := ρ.line r.line, tokens := ρ.tokens r.tokens }

@[simp] theorem operands_record (r : Record) :
    (ρ.record r).operands = r.operands.map (Operand.renamed ρ.name) :=
  r.body.operands_renamed ρ.name

@[simp] theorem byteLength_record (r : Record) : (ρ.record r).byteLength = r.byteLength := by
  simp [Record.byteLength, record, Record.renamed]

@[simp] theorem closedScopes_record (scoping : Bool) (r : Record) :
    (ρ.record r).closedScopes scoping = r.closedScopes scoping := by
  simp [Record.closedScopes, record, Record.renamed]

/-! ## Pooling and layout -/

@[simp] theorem literalCount_record (r : Record) :
    (ρ.record r).literalCount = r.literalCount := by
  simp [Record.literalCount, Tally.total_eq_sum, Function.comp_def]

theorem pooled_renamed (n : Nat) (operand : Operand) :
    (operand.renamed ρ.name).pooled n = (operand.pooled n).renamed ρ.name := by
  cases operand with
  | literal l span => simp [Operand.pooled, Operand.renamed, ρ.name_literalName]
  | resolved value => rfl
  | symbol name span => rfl

theorem pooled_record (n : Nat) (r : Record) :
    (ρ.record r).pooled n = ρ.record (r.pooled n) := by
  have hbody : (r.body.renamed ρ.name).pooled n = (r.body.pooled n).renamed ρ.name := by
    cases r.body with
    | operation code r1 r2 adr =>
      cases adr <;> simp [Body.renamed, Body.mapOperands, Body.pooled, pooled_renamed]
    | transfer code buffer length =>
      simp [Body.renamed, Body.mapOperands, Body.pooled, pooled_renamed]
    | data value => simp [Body.renamed, Body.mapOperands, Body.pooled, pooled_renamed]
    | start target => rfl
    | finish => rfl
    | labelOnly => rfl
  simp only [Record.pooled, record, Record.renamed, hbody]

theorem record_pooledWord (label : Option String) (line : Nat) (value : Int) :
    ρ.record (.pooledWord label line value) =
      .pooledWord (label.map ρ.name) (ρ.line line) value := by
  simp only [record, Record.renamed, Record.pooledWord, ρ.tokens_nil]
  rfl

theorem pooledData_renamed (line n : Nat) (operand : Operand) :
    (operand.renamed ρ.name).pooledData (ρ.line line) n =
      (operand.pooledData line n).map ρ.record := by
  cases operand with
  | literal l span =>
    simp only [Operand.renamed, Operand.pooledData]
    cases l.words with
    | nil => rfl
    | cons word words =>
      simp [record_pooledWord, ρ.name_literalName, Function.comp_def]
  | resolved value => rfl
  | symbol name span => rfl

theorem pooledData_record (n : Nat) (r : Record) :
    (ρ.record r).pooledData n = (r.pooledData n).map ρ.record := by
  have hline : (ρ.record r).line = ρ.line r.line := rfl
  have hcount : Operand.literalCount ∘ Operand.renamed ρ.name = Operand.literalCount :=
    funext (Operand.literalCount_renamed ρ.name)
  simp only [Record.pooledData, operands_record, Tally.running_map, hcount, hline,
    List.flatMap_map, List.map_flatMap]
  exact List.flatMap_congr fun p _ => ρ.pooledData_renamed r.line p.1 p.2

theorem literalPool_map (n : Nat) (rs : List Record) :
    LiteralPool.ofRecords n (rs.map ρ.record) =
      { LiteralPool.ofRecords n rs with
        records := (LiteralPool.ofRecords n rs).records.map ρ.record
        generated := (LiteralPool.ofRecords n rs).generated.map ρ.record } := by
  have hcount : Record.literalCount ∘ ρ.record = Record.literalCount :=
    funext ρ.literalCount_record
  simp only [LiteralPool.ofRecords, Tally.running_map, hcount, Tally.total_eq_sum, List.map_map,
    List.flatMap_map, List.map_flatMap]
  congr 1
  · exact List.map_congr_left fun p _ => ρ.pooled_record p.1 p.2
  · exact List.flatMap_congr fun p _ => ρ.pooledData_record p.1 p.2

theorem place_map (start : Nat) (rs : List Record) :
    Layout.place start (rs.map ρ.record) = (Layout.place start rs).map ρ.record := by
  have hlength : Record.byteLength ∘ ρ.record = Record.byteLength := funext ρ.byteLength_record
  simp only [Layout.place, Tally.running_map, hlength, List.map_map]
  rfl

theorem assignScopes_map (scoping : Bool) (rs : List Record) :
    Layout.assignScopes scoping (rs.map ρ.record) =
      (Layout.assignScopes scoping rs).map ρ.record := by
  have hscopes : Record.closedScopes scoping ∘ ρ.record = Record.closedScopes scoping :=
    funext (ρ.closedScopes_record scoping)
  simp only [Layout.assignScopes, Tally.running_map, hscopes, List.map_map]
  rfl

/-- Pooling and layout do not look at names. -/
theorem layout_map (scoping : Bool) (rs : List Record) :
    Assembly.layout scoping (rs.map ρ.record) =
      { records := (Assembly.layout scoping rs).records.map ρ.record
        generated := (Assembly.layout scoping rs).generated.map ρ.record } := by
  have hlength : Record.byteLength ∘ ρ.record = Record.byteLength := funext ρ.byteLength_record
  simp only [Assembly.layout, literalPool_map, Layout.ofRecords, assignScopes_map, place_map,
    Layout.byteLength, Tally.total_eq_sum, List.map_map, hlength]

/-! ## Collecting labels -/

/-- The tables have the same addresses and scopes under the old and the new names. -/
structure Relates (t t' : LabelTable) : Prop where
  entry : ∀ key, (t'.get? (key.renamed ρ.name)).map (fun e => (e.address, e.scope)) =
    (t.get? key).map fun e => (e.address, e.scope)
  redirection : ∀ name, (t'.redirection? (ρ.name name)).map (fun d => (d.target, d.scope)) =
    (t.redirection? name).map fun d => (d.target.renamed ρ.name, d.scope)

namespace Relates

variable {ρ} {t t' u u' : LabelTable}

theorem empty : ρ.Relates .empty .empty := ⟨fun _ => rfl, fun _ => rfl⟩

theorem insert (h : ρ.Relates t t') (key : LabelTable.Key) (address scope : Nat)
    (definition definition' : Option Location) :
    ρ.Relates (t.insert key address scope definition)
      (t'.insert (key.renamed ρ.name) address scope definition') := by
  refine ⟨fun key' => ?_, h.redirection⟩
  have hkey : key.renamed ρ.name = key'.renamed ρ.name ↔ key = key' :=
    (LabelTable.Key.renamed_injective ρ.injective).eq_iff
  by_cases heq : key = key'
  · simp [heq]
  · simpa [hkey, heq] using h.entry key'

theorem redirect (h : ρ.Relates t t') (name target : String) (scope : Nat)
    (definition definition' : Option Location) :
    ρ.Relates (t.redirect name target scope definition)
      (t'.redirect (ρ.name name) (ρ.name target) scope definition') := by
  refine ⟨h.entry, fun name' => ?_⟩
  by_cases heq : name = name'
  · simp [heq, LabelTable.Key.renamed, LabelTable.Key.inScope]
  · simpa [ρ.injective.eq_iff, heq] using h.redirection name'

/-- Uses do not matter. -/
theorem congr (h : ρ.Relates t t') (hu : t.SameDeclarations u) (hu' : t'.SameDeclarations u') :
    ρ.Relates u u' := by
  have hmap (e : Option LabelTable.Entry) : e.map (fun e => (e.address, e.scope)) =
      (e.map LabelTable.Entry.unused).map fun e => (e.address, e.scope) := by
    cases e <;> rfl
  refine ⟨fun key => ?_, fun name => ?_⟩
  · rw [hmap, hu'.entry, hmap (u.get? key), hu.entry, ← hmap, ← hmap]
    exact h.entry key
  · rw [hu'.redirection, hu.redirection]
    exact h.redirection name

theorem isSome_get? (h : ρ.Relates t t') (key : LabelTable.Key) :
    (t'.get? (key.renamed ρ.name)).isSome = (t.get? key).isSome := by
  simpa using congrArg Option.isSome (h.entry key)

theorem isSome_redirection? (h : ρ.Relates t t') (name : String) :
    (t'.redirection? (ρ.name name)).isSome = (t.redirection? name).isSome := by
  simpa using congrArg Option.isSome (h.redirection name)

theorem isGlobal (h : ρ.Relates t t') (name : String) :
    t'.isGlobal (ρ.name name) = t.isGlobal name :=
  congrArg₂ or (h.isSome_get? (.global name)) (h.isSome_redirection? name)

theorem isDeclaredIn (h : ρ.Relates t t') (name : String) (scope : Nat) :
    t'.isDeclaredIn (ρ.name name) scope = t.isDeclaredIn name scope := by
  have hglobal := congrArg (Option.any fun p => p.2 == scope) (h.entry (.global name))
  have hredirection := congrArg (Option.any fun p => p.2 == scope) (h.redirection name)
  rw [Option.any_map, Option.any_map] at hglobal hredirection
  exact congrArg₂ or (congrArg₂ or (h.isSome_get? (.inScope name scope)) hglobal) hredirection

theorem addressOf? (h : ρ.Relates t t') (key : LabelTable.Key) :
    t'.addressOf? (key.renamed ρ.name) = t.addressOf? key := by
  have haddress := congrArg (Option.map Prod.fst) (h.entry key)
  rwa [Option.map_map, Option.map_map] at haddress

/-- A name stands for the same address as before. -/
theorem address? (h : ρ.Relates t t') (name : String) (scope : Nat) :
    t'.address? (ρ.name name) scope = t.address? name scope := by
  have htarget : (t'.redirection? (ρ.name name)).bind (fun d => t'.addressOf? d.target) =
      (t.redirection? name).bind fun d => t.addressOf? d.target := by
    have hredirection := congrArg (fun d => d.bind fun p => t'.addressOf? p.1)
      (h.redirection name)
    simpa only [Option.bind_map, Function.comp_def, h.addressOf?] using hredirection
  rw [LabelTable.address?_eq, LabelTable.address?_eq, htarget]
  exact congrArg₂ _ rfl (congrArg₂ _ (h.addressOf? (.inScope name scope))
    (h.addressOf? (.global name)))

theorem declareGenerated (h : ρ.Relates t t') (r : Record) :
    ρ.Relates (t.declareGenerated r) (t'.declareGenerated (ρ.record r)) := by
  have hlabel : (ρ.record r).label = r.label.map ρ.name := rfl
  rw [LabelTable.declareGenerated, LabelTable.declareGenerated, hlabel]
  cases r.label with
  | none => exact h
  | some name => exact h.insert (.global name) r.address r.scope _ _

theorem foldl_declareGenerated (h : ρ.Relates t t') (generated : List Record) :
    ρ.Relates (generated.foldl LabelTable.declareGenerated t)
      ((generated.map ρ.record).foldl LabelTable.declareGenerated t') := by
  induction generated generalizing t t' with
  | nil => exact h
  | cons r generated ih => exact ih (h.declareGenerated r)

end Relates

end Renaming

/-- The problem with the new names of its labels. -/
def Diagnostic.Kind.renamed (f : String → String) : Diagnostic.Kind → Diagnostic.Kind
  | duplicateLabel name => duplicateLabel (f name)
  | undeclaredLabel name => undeclaredLabel (f name)
  | kind => kind

namespace Renaming

variable (ρ : Renaming)

theorem declaration_record (r : Record) :
    (ρ.record r).declaration = r.declaration.renamed ρ.name := by
  rw [Record.declaration, Record.declaration]
  have hbody : (ρ.record r).body = r.body.renamed ρ.name := rfl
  rw [hbody]
  cases r.body with
  | start target =>
    cases target with
    | none => rfl
    | some operand => cases operand <;> rfl
  | _ => rfl

/-- The diagnostics report the same problems under the old and the new names. -/
def SameProblems (ds ds' : List Diagnostic) : Prop :=
  ds'.map (·.kind) = ds.map fun d => d.kind.renamed ρ.name

/-- The tables are related, and the same problems were found on the way. -/
structure RelatesReported (state state' : LabelTable.Reported) : Prop where
  labels : ρ.Relates state.1 state'.1
  problems : ρ.SameProblems state.2 state'.2

variable {ρ}

theorem SameProblems.append {ds ds' es es' : List Diagnostic} (h : ρ.SameProblems ds ds')
    (h' : ρ.SameProblems es es') : ρ.SameProblems (ds ++ es) (ds' ++ es') := by
  simpa [SameProblems] using congrArg₂ (· ++ ·) h h'

theorem SameProblems.flatMap {α : Type} {f g : α → List Diagnostic} {as : List α}
    (h : ∀ a ∈ as, ρ.SameProblems (f a) (g a)) : ρ.SameProblems (as.flatMap f) (as.flatMap g) := by
  simp only [SameProblems, List.map_flatMap]
  exact List.flatMap_congr h

variable {state state' : LabelTable.Reported} (h : ρ.RelatesReported state state')
include h

/-- A traversal keeps the tables related if each of its steps does. -/
theorem RelatesReported.foldl {step : LabelTable.Reported → Record → LabelTable.Reported}
    (hstep : ∀ state state' r, ρ.RelatesReported state state' →
      ρ.RelatesReported (step state r) (step state' (ρ.record r))) (rs : List Record) :
    ρ.RelatesReported (rs.foldl step state) ((rs.map ρ.record).foldl step state') := by
  induction rs generalizing state state' with
  | nil => exact h
  | cons r rs ih => exact ih (hstep state state' r h)

theorem isTaken_record (name : String) (r : Record) :
    state'.1.isTaken (ρ.name name) (ρ.record r) = state.1.isTaken name r := by
  have hkind : (r.declaration.renamed ρ.name ≠ .inScope) = (r.declaration ≠ .inScope) := by
    cases r.declaration <;> simp [Declaration.renamed]
  simp only [LabelTable.isTaken_eq, declaration_record, hkind, h.labels.isGlobal]
  exact congrArg _ (h.labels.isDeclaredIn name r.scope)

theorem addLabel_record (name : String) (r : Record) :
    ρ.Relates (state.1.addLabel name r) (state'.1.addLabel (ρ.name name) (ρ.record r)) := by
  rw [LabelTable.addLabel_eq, LabelTable.addLabel_eq, declaration_record]
  cases r.declaration with
  | redirection target => exact h.labels.redirect name target r.scope _ _
  | global => exact h.labels.insert (.global name) r.address r.scope _ _
  | inScope => exact h.labels.insert (.inScope name r.scope) r.address r.scope _ _

theorem declare_record (r : Record) :
    ρ.RelatesReported (LabelTable.declare state r) (LabelTable.declare state' (ρ.record r)) := by
  have hlabel : (ρ.record r).label = r.label.map ρ.name := rfl
  rw [LabelTable.declare, LabelTable.declare, hlabel]
  cases r.label with
  | none => exact h
  | some name =>
    simp only [Option.map_some, isTaken_record h name r]
    split
    · exact ⟨h.labels, h.problems.append rfl⟩
    · exact ⟨addLabel_record h name r, h.problems⟩

theorem referToEntry_record (r : Record) :
    ρ.RelatesReported (LabelTable.referToEntry state r)
      (LabelTable.referToEntry state' (ρ.record r)) := by
  have hsome (target : String) :
      (state'.1.get? (.inScope (ρ.name target) (ρ.record r).scope)).isSome =
        (state.1.get? (.inScope target r.scope)).isSome :=
    h.labels.isSome_get? (.inScope target r.scope)
  rcases LabelTable.referToEntry_cases state r with
    ⟨hsame, hproblems, hentry⟩ | ⟨place, target, hreport, htarget, hmissing⟩
  · rcases LabelTable.referToEntry_cases state' (ρ.record r) with
      ⟨hsame', hproblems', -⟩ | ⟨-, target', -, htarget', hmissing'⟩
    · refine ⟨h.labels.congr hsame hsame', ?_⟩
      rw [hproblems, hproblems']
      exact h.problems
    · rw [declaration_record] at htarget'
      obtain ⟨target, htarget, rfl⟩ := Declaration.renamed_eq_redirection.1 htarget'
      rw [hsome, hentry target htarget] at hmissing'
      cases hmissing'
  · have hrenamed : (ρ.record r).declaration = .redirection (ρ.name target) := by
      rw [declaration_record, htarget]
      rfl
    rcases LabelTable.referToEntry_cases state' (ρ.record r) with
      ⟨-, -, hentry'⟩ | ⟨place', target', hreport', htarget', -⟩
    · rw [← hsome, hentry' _ hrenamed] at hmissing
      cases hmissing
    · cases hrenamed.symm.trans htarget'
      rw [hreport, hreport']
      exact ⟨h.labels, h.problems.append rfl⟩

end Renaming

/-- The error with the new names of its labels and the new line numbers. -/
def EncodingError.renamed (f : String → String) (line : Nat → Nat) : EncodingError → EncodingError
  | unresolved number name => unresolved (line number) (f name)
  | overflow number value => overflow (line number) value
  | noEntryPoint name => noEntryPoint (f name)

namespace Assembly

/-- What is wrong with the labels and names of records. -/
def nameProblems (scoping : Bool) (rs : List Record) : List Diagnostic :=
  (declaredLabels scoping rs).2 ++
    (layout scoping rs).records.flatMap (Record.resolveProblems .exact (labels scoping rs))

/-- The image of records, whether or not anything is wrong with them. -/
def encoded (scoping : Bool) (rs : List Record) : Except EncodingError (List Word) :=
  Image.ofRecords (resolvedRecords scoping rs) (layout scoping rs).generated (labels scoping rs)

/-- Pooling leaves no literal in a program. -/
theorem literal?_resolvedRecords (scoping : Bool) (rs : List Record) :
    ∀ r ∈ resolvedRecords scoping rs ++ (layout scoping rs).generated,
      ∀ operand ∈ r.operands, operand.literal? = none := by
  intro r hr operand hoperand
  rcases List.mem_append.1 hr with hr | hr
  · obtain ⟨laidOut, hlaidOut, rfl⟩ := List.mem_map.1 hr
    obtain ⟨i, p, -, rfl⟩ := exists_placed hlaidOut
    rw [Record.resolve, Record.operands_mapOperands] at hoperand
    obtain ⟨named, hnamed, rfl⟩ := List.mem_map.1 hoperand
    obtain ⟨j, hj⟩ := List.mem_iff_getElem?.1 hnamed
    rw [getElem?_operands_placed, Option.map_eq_some_iff] at hj
    obtain ⟨source, -, rfl⟩ := hj
    rw [Operand.literal?_resolve, Operand.literal?_pooled]
  · obtain ⟨value, -, hdata⟩ := exists_value_of_mem_generated hr
    rw [Record.operands, hdata] at hoperand
    cases List.mem_singleton.1 hoperand
    rfl

end Assembly

namespace Renaming

variable (ρ : Renaming) (scoping : Bool) (rs : List Record)

theorem ofRecords_record (rs generated : List Record) :
    ρ.RelatesReported (LabelTable.ofRecords rs generated)
      (LabelTable.ofRecords (rs.map ρ.record) (generated.map ρ.record)) := by
  have hempty : ρ.RelatesReported (.empty, []) (.empty, []) := ⟨.empty, rfl⟩
  have hdeclared := hempty.foldl (fun _ _ r h => declare_record h r) rs
  have hgenerated : ρ.RelatesReported
      (generated.foldl LabelTable.declareGenerated (rs.foldl LabelTable.declare (.empty, [])).1,
        (rs.foldl LabelTable.declare (.empty, [])).2)
      ((generated.map ρ.record).foldl LabelTable.declareGenerated
          ((rs.map ρ.record).foldl LabelTable.declare (.empty, [])).1,
        ((rs.map ρ.record).foldl LabelTable.declare (.empty, [])).2) :=
    ⟨hdeclared.labels.foldl_declareGenerated generated, hdeclared.problems⟩
  exact hgenerated.foldl (fun _ _ r h => referToEntry_record h r) rs

theorem declaredLabels_map :
    ρ.RelatesReported (Assembly.declaredLabels scoping rs)
      (Assembly.declaredLabels scoping (rs.map ρ.record)) := by
  rw [Assembly.declaredLabels, Assembly.declaredLabels, layout_map]
  exact ρ.ofRecords_record _ _

theorem labels_map :
    ρ.Relates (Assembly.labels scoping rs) (Assembly.labels scoping (rs.map ρ.record)) :=
  (ρ.declaredLabels_map scoping rs).labels.congr
    (LabelTable.sameDeclarations_referByRecords _ _)
    (LabelTable.sameDeclarations_referByRecords _ _)

/-! ## Resolving names and encoding -/

variable {ρ} {t t' : LabelTable}

theorem Relates.resolve_renamed (h : ρ.Relates t t') (scope : Nat) (operand : Operand) :
    (operand.renamed ρ.name).resolve .exact t' scope =
      (operand.resolve .exact t scope).renamed ρ.name := by
  cases operand with
  | symbol name span =>
    simp only [Operand.renamed, Operand.resolve, h.address?]
    cases t.address? name scope <;> rfl
  | resolved value => rfl
  | literal l span => rfl

theorem Relates.resolve_record (h : ρ.Relates t t') (r : Record) :
    (ρ.record r).resolve .exact t' = ρ.record (r.resolve .exact t) := by
  have hbody : (r.body.renamed ρ.name).mapOperands (Operand.resolve .exact t' r.scope) =
      (r.body.mapOperands (Operand.resolve .exact t r.scope)).renamed ρ.name := by
    cases r.body with
    | operation code r1 r2 adr =>
      cases adr <;> simp [Body.renamed, Body.mapOperands, h.resolve_renamed]
    | transfer code buffer length => simp [Body.renamed, Body.mapOperands, h.resolve_renamed]
    | data value => simp [Body.renamed, Body.mapOperands, h.resolve_renamed]
    | start target => rfl
    | finish => rfl
    | labelOnly => rfl
  simp only [Record.resolve, Record.mapOperands, record, Record.renamed, hbody]

theorem Relates.resolveProblem?_renamed (h : ρ.Relates t t') (line line' scope : Nat)
    (operand : Operand) :
    ((operand.renamed ρ.name).resolveProblem? .exact t' line' scope).map (·.kind) =
      (operand.resolveProblem? .exact t line scope).map fun d => d.kind.renamed ρ.name := by
  cases operand with
  | symbol name span =>
    simp only [Operand.renamed, Operand.resolveProblem?, h.address?]
    cases t.address? name scope with
    | none => rfl
    | some address =>
      dsimp only
      split <;> rfl
  | resolved value => rfl
  | literal l span => rfl

theorem Relates.resolveProblems_record (h : ρ.Relates t t') (r : Record) :
    ρ.SameProblems (r.resolveProblems .exact t) ((ρ.record r).resolveProblems .exact t') := by
  rw [SameProblems, Record.resolveProblems, Record.resolveProblems, operands_record,
    List.filterMap_map, List.map_filterMap, List.map_filterMap]
  exact List.filterMap_congr fun operand _ => h.resolveProblem?_renamed r.line _ r.scope operand

variable (ρ)

/-- The problems of the names are the same under the old and the new names. -/
theorem nameProblems_map :
    ρ.SameProblems (Assembly.nameProblems scoping rs)
      (Assembly.nameProblems scoping (rs.map ρ.record)) := by
  refine (ρ.declaredLabels_map scoping rs).problems.append ?_
  rw [layout_map, List.flatMap_map]
  exact .flatMap fun r _ => (ρ.labels_map scoping rs).resolveProblems_record r

theorem resolvedRecords_map :
    Assembly.resolvedRecords scoping (rs.map ρ.record) =
      (Assembly.resolvedRecords scoping rs).map ρ.record := by
  rw [Assembly.resolvedRecords, Assembly.resolvedRecords, layout_map, List.map_map, List.map_map]
  exact List.map_congr_left fun r _ => (ρ.labels_map scoping rs).resolve_record r

/-- The error with the new names and line numbers. -/
def error : EncodingError → EncodingError := EncodingError.renamed ρ.name ρ.line

theorem word_renamed {operand : Operand} (h : operand.literal? = none) (line : Nat) :
    (operand.renamed ρ.name).word (ρ.line line) = (operand.word line).mapError ρ.error := by
  cases operand with
  | resolved value =>
    simp only [Operand.renamed, Operand.word]
    split <;> rfl
  | symbol name span => rfl
  | literal l span => cases h

theorem words_record {r : Record} (h : ∀ operand ∈ r.operands, operand.literal? = none) :
    (ρ.record r).words = r.words.mapError ρ.error := by
  have hline : (ρ.record r).line = ρ.line r.line := rfl
  have hhead : (ρ.record r).body.headWords = r.body.headWords := r.body.headWords_renamed ρ.name
  have hoperands : (r.operands.map (Operand.renamed ρ.name)).mapM (Operand.word (ρ.line r.line)) =
      (r.operands.mapM (Operand.word r.line)).mapError ρ.error :=
    Traversal.mapM_map_eq_mapError fun operand hoperand =>
      ρ.word_renamed (h operand hoperand) r.line
  rw [Record.words_eq, Record.words_eq, operands_record, hline, hhead, hoperands]
  cases r.operands.mapM (Operand.word r.line) <;> rfl

theorem code_map {rs : List Record}
    (h : ∀ r ∈ rs, ∀ operand ∈ r.operands, operand.literal? = none) :
    Image.code (rs.map ρ.record) = (Image.code rs).mapError ρ.error := by
  rw [Image.code, Image.code,
    Traversal.mapM_map_eq_mapError fun r hr => ρ.words_record (h r hr)]
  cases rs.mapM Record.words <;> rfl

variable {ρ} in
theorem Relates.entryPoint_map (h : ρ.Relates t t') (rs : List Record) :
    Image.entryPoint (rs.map ρ.record) t' = (Image.entryPoint rs t).mapError ρ.error := by
  have hlabel : (rs.map ρ.record).head?.bind (·.label) =
      (rs.head?.bind (·.label)).map ρ.name := by
    cases rs <;> rfl
  rw [Image.entryPoint, Image.entryPoint, hlabel]
  cases rs.head?.bind (·.label) with
  | none => rfl
  | some name =>
    simp only [Option.map_some, h.address?]
    cases t.address? name 1 with
    | none => rfl
    | some address =>
      dsimp only
      split <;> rfl

/-- The image is the same under the old and the new names. -/
theorem encoded_map : Assembly.encoded scoping (rs.map ρ.record) =
    (Assembly.encoded scoping rs).mapError ρ.error := by
  have hentry := (ρ.labels_map scoping rs).entryPoint_map (Assembly.resolvedRecords scoping rs)
  have hcode := ρ.code_map (Assembly.literal?_resolvedRecords scoping rs)
  rw [List.map_append] at hcode
  rw [Assembly.encoded, Assembly.encoded, resolvedRecords_map, layout_map, Image.ofRecords,
    Image.ofRecords, hentry, hcode]
  cases Image.entryPoint (Assembly.resolvedRecords scoping rs) (Assembly.labels scoping rs) with
  | error e => rfl
  | ok entry =>
    cases Image.code (Assembly.resolvedRecords scoping rs ++
      (Assembly.layout scoping rs).generated) <;> rfl

end Renaming

end Comet
