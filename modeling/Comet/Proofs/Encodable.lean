import Comet.Proofs.Code
import Comet.Proofs.ErrorFree
import Comet.Proofs.PooledData

/-!
# Programs without errors can be encoded

An operand becomes a number in one of several places: when a numeral or a string is
read, when the words of a literal are pooled, or when a name is resolved. Each of them
checks that the number fits in a word and reports an error otherwise. So a program
without errors has machine code.
-/

namespace Comet

theorem Operand.word_resolved {line : Nat} {value : Int} (h : Word.fits value = true) :
    (Operand.resolved value).word line = .ok (.ofValue value) :=
  if_pos h

/-- An operand that is a number of a word. -/
def Operand.IsWord (operand : Operand) : Prop :=
  ∃ value, operand = .resolved value ∧ Word.fits value = true

theorem Record.isConfirmed_of_isWord {r : Record} (h : ∀ operand ∈ r.operands, operand.IsWord) :
    r.isConfirmed = true := by
  refine List.all_eq_true.2 fun operand hoperand => ?_
  obtain ⟨value, rfl, -⟩ := h operand hoperand
  rfl

theorem Record.exists_words_of_isWord {r : Record} (h : ∀ operand ∈ r.operands, operand.IsWord) :
    ∃ ws, r.words = .ok ws := by
  have hoperands : ∀ operand ∈ r.operands, ∃ word, operand.word r.line = .ok word := by
    intro operand hoperand
    obtain ⟨value, rfl, hfits⟩ := h operand hoperand
    exact ⟨_, Operand.word_resolved hfits⟩
  obtain ⟨us, hus⟩ := Traversal.exists_mapM hoperands
  exact ⟨_, words_eq_ok.2 ⟨us, hus, rfl⟩⟩

namespace Occurrence

/-- The literals of well-formed records are well formed. -/
theorem wellFormed_literal {rs : List Record} (hrs : ∀ r ∈ rs, r.WellFormed) {o : Occurrence}
    (ho : o ∈ occurrences rs) : o.literal.WellFormed := by
  obtain ⟨k, hk⟩ := List.mem_iff_getElem?.1 ho
  obtain ⟨r, span, hr, -, hoperand, -⟩ := getElem?_occurrences hk
  exact (hrs r (List.mem_of_getElem? hr)).operands _ (List.mem_of_getElem? hoperand)

theorem nonempty_literals {rs : List Record} (hrs : ∀ r ∈ rs, r.WellFormed) :
    LiteralPool.Nonempty rs :=
  fun _ ho => (wellFormed_literal hrs ho).nonempty

end Occurrence

namespace Assembly

variable {scoping : Bool} {rs : List Record}

theorem exists_placed {r : Record} (h : r ∈ (layout scoping rs).records) :
    ∃ i p, rs[i]? = some p ∧ r = placed scoping rs i p := by
  obtain ⟨i, hi⟩ := List.mem_iff_getElem?.1 h
  rw [getElem?_layout, Option.map_eq_some_iff] at hi
  obtain ⟨p, hp, rfl⟩ := hi
  exact ⟨i, p, hp, rfl⟩

/-- Without errors, every name has an address that fits in a word. -/
theorem ErrorFree.exists_address (h : ErrorFree scoping rs) {r : Record}
    (hr : r ∈ (layout scoping rs).records) {name : String} {span : Span}
    (hoperand : .symbol name span ∈ r.operands) :
    ∃ address : Nat, (labels scoping rs).address? name r.scope = some address ∧
      Word.fits (address : Int) = true := by
  have hproblem := h.resolved r hr _ hoperand
  rw [Operand.resolveProblem?] at hproblem
  cases haddress : (labels scoping rs).address? name r.scope with
  | none => simp [haddress] at hproblem
  | some address =>
    rw [haddress] at hproblem
    dsimp only at hproblem
    split at hproblem
    · exact ⟨address, rfl, by assumption⟩
    · cases hproblem

/-- So resolving makes every operand a number of a word. -/
theorem ErrorFree.isWord (h : ErrorFree scoping rs) (hrs : ∀ r ∈ rs, r.WellFormed) {r : Record}
    (hr : r ∈ (layout scoping rs).records) :
    ∀ operand ∈ (r.resolve .exact (labels scoping rs)).operands, operand.IsWord := by
  intro operand hoperand
  rw [Record.resolve, Record.operands_mapOperands] at hoperand
  obtain ⟨named, hnamed, rfl⟩ := List.mem_map.1 hoperand
  have hname {name : String} {span : Span} (hsymbol : named = .symbol name span) :
      (named.resolve .exact (labels scoping rs) r.scope).IsWord := by
    subst hsymbol
    obtain ⟨address, haddress, hfits⟩ := h.exists_address hr hnamed
    rw [Operand.resolve, haddress]
    exact ⟨address, rfl, hfits⟩
  -- Numbers were checked when they were read. Literals have become names by pooling.
  obtain ⟨i, p, hp, rfl⟩ := exists_placed hr
  obtain ⟨j, hj⟩ := List.mem_iff_getElem?.1 hnamed
  rw [getElem?_operands_placed, Option.map_eq_some_iff] at hj
  obtain ⟨source, hsource, rfl⟩ := hj
  cases source with
  | resolved value =>
    exact ⟨value, rfl, (hrs p (List.mem_of_getElem? hp)).operands _ (List.mem_of_getElem? hsource)⟩
  | symbol name span => exact hname rfl
  | literal l span => exact hname rfl

/-- The laid out pooled data holds the words of the literals. -/
theorem map_body_layout (scoping : Bool) (rs : List Record) :
    (layout scoping rs).generated.map (·.body) =
      LiteralPool.dataBodies (LiteralPool.values rs) := by
  rw [← LiteralPool.map_body_generated]
  exact Layout.map_place (fun _ _ => rfl) _ _

theorem exists_value_of_mem_generated {r : Record} (hr : r ∈ (layout scoping rs).generated) :
    ∃ value ∈ LiteralPool.values rs, r.body = .data (.resolved value) := by
  have hbody := List.mem_map_of_mem (f := fun r : Record => r.body) hr
  rw [map_body_layout] at hbody
  obtain ⟨value, hvalue, hdata⟩ := List.mem_map.1 hbody
  exact ⟨value, hvalue, hdata.symm⟩

theorem isWord_generated (hrs : ∀ r ∈ rs, r.WellFormed) {r : Record}
    (hr : r ∈ (layout scoping rs).generated) : ∀ operand ∈ r.operands, operand.IsWord := by
  obtain ⟨value, hvalue, hdata⟩ := exists_value_of_mem_generated hr
  obtain ⟨o, ho, hvalue⟩ := List.mem_flatMap.1 hvalue
  intro operand hoperand
  rw [Record.operands, hdata] at hoperand
  cases List.mem_singleton.1 hoperand
  exact ⟨value, rfl, (Occurrence.wellFormed_literal hrs ho).fits value hvalue⟩

/-- Without errors, all records of an analysis are numbers of words throughout. -/
theorem isWord_of_hasErrors_eq_false {reading : Statement.Reading}
    (hrs : ∀ r ∈ reading.records, r.WellFormed)
    (h : Diagnostic.hasErrors (analyzeRecords scoping reading).diagnostics = false) {r : Record}
    (hr : r ∈ (analyzeRecords scoping reading).records ++
      (analyzeRecords scoping reading).generated) :
    ∀ operand ∈ r.operands, operand.IsWord := by
  rcases List.mem_append.1 hr with hr | hr
  · rw [records_analyzeRecords] at hr
    obtain ⟨laidOut, hlaidOut, rfl⟩ := List.mem_map.1 hr
    exact (errorFree_of_analyzeRecords h).isWord hrs hlaidOut
  · rw [generated_analyzeRecords] at hr
    exact isWord_generated hrs hr

/-- The only error of an encoding is an entry without an address, if all records can be
encoded. -/
theorem image?_eq_error {a : Analysis} {e : EncodingError}
    (hwords : Diagnostic.hasErrors a.diagnostics = false →
      ∀ r ∈ a.records ++ a.generated, ∃ ws, r.words = .ok ws)
    (h : a.image? = .error e) : ∃ name, e = .noEntryPoint name := by
  rw [Analysis.image?] at h
  split at h
  · cases h
  rename_i herrors
  obtain ⟨ws, hcode⟩ := Image.exists_code (hwords (Bool.eq_false_iff.2 herrors))
  rw [Image.ofRecords, hcode] at h
  cases hentry : Image.entryPoint a.records a.labels with
  | ok entry =>
    rw [hentry] at h
    cases h
  | error e' =>
    rw [hentry] at h
    cases h
    exact Image.entryPoint_eq_error hentry

theorem image?_of_compile_eq_error {options : Options} {lines : List String} {a : Analysis}
    {e : EncodingError} (ha : analyze options lines = .ok a)
    (h : compile options lines = .error (.encoding e)) : a.image? = .error e := by
  rw [compile, ha] at h
  dsimp only at h
  split at h
  · rename_i e' herror
    cases h
    rw [Analysis.compile] at herror
    cases himage : a.image? with
    | error e' =>
      rw [himage] at herror
      cases herror
      rfl
    | ok words =>
      rw [himage] at herror
      cases herror
  · cases h

/-- Every source text can be analysed. If it has no errors, all of its records are
confirmed and have machine code. Hence assembling never fails because an operand is
not a number or does not fit in a word. -/
theorem words_of_errorFree (options : Options) (lines : List String) :
    ∃ a, analyze options lines = .ok a ∧
      (Diagnostic.hasErrors a.diagnostics = false → ∀ r ∈ a.records ++ a.generated,
        r.isConfirmed = true ∧ ∃ ws, r.words = .ok ws) ∧
      (∀ line name, compile options lines ≠ .error (.encoding (.unresolved line name))) ∧
      ∀ line value, compile options lines ≠ .error (.encoding (.overflow line value)) := by
  obtain ⟨reading, hread, hrs⟩ := exists_readLines options.gr8 lines
  have hanalyze : analyze options lines = .ok (analyzeRecords options.scoping reading) := by
    rw [analyze, hread]
    rfl
  have hwords : Diagnostic.hasErrors (analyzeRecords options.scoping reading).diagnostics = false →
      ∀ r ∈ (analyzeRecords options.scoping reading).records ++
        (analyzeRecords options.scoping reading).generated, ∃ ws, r.words = .ok ws :=
    fun h r hr => Record.exists_words_of_isWord (isWord_of_hasErrors_eq_false hrs h hr)
  refine ⟨_, hanalyze, fun h r hr => ⟨?_, hwords h r hr⟩, ?_, ?_⟩
  · exact Record.isConfirmed_of_isWord (isWord_of_hasErrors_eq_false hrs h hr)
  · intro line name h
    obtain ⟨_, he⟩ := image?_eq_error hwords (image?_of_compile_eq_error hanalyze h)
    cases he
  · intro line value h
    obtain ⟨_, he⟩ := image?_eq_error hwords (image?_of_compile_eq_error hanalyze h)
    cases he

/-- A program with a forward reference, a string literal and an empty reservation. -/
theorem words_of_errorFree_literal :
    ∃ a, analyze { scoping := true } ["MAIN START", " OUT ='IT''S',N", " RET", "E DS 0",
        "N DC -1,#FFFF", " END"] = .ok a ∧
      Diagnostic.hasErrors a.diagnostics = false ∧
      ∀ r ∈ a.records ++ a.generated, r.isConfirmed = true ∧ ∃ ws, r.words = .ok ws := by
  obtain ⟨a, ha, hwords, -⟩ := words_of_errorFree { scoping := true } ["MAIN START",
    " OUT ='IT''S',N", " RET", "E DS 0", "N DC -1,#FFFF", " END"]
  have hfree : (analyze { scoping := true } ["MAIN START", " OUT ='IT''S',N", " RET", "E DS 0",
      "N DC -1,#FFFF", " END"]).toOption.map (Diagnostic.hasErrors ·.diagnostics) =
      some false := by decide +kernel
  rw [ha] at hfree
  have hnone : Diagnostic.hasErrors a.diagnostics = false := Option.some.inj hfree
  exact ⟨a, ha, hnone, hwords hnone⟩

end Assembly

end Comet
