import Comet.Proofs.Encodable

/-!
# What the operands of a line become

The records of a line stand in the program behind those of the lines before it, and analysing the
program keeps their places. A number stays as it is until it is encoded. A literal becomes the
name of its data, which is encoded in turn, and a name becomes the address of its label. `Carries`
says this of one operand, and the program carries every operand of every line (`exists_carries`).
-/

namespace Comet

/-- The word of a value is the value modulo 65536. -/
theorem Word.toNat_ofValue (value : Int) : ((ofValue value).toNat : Int) = value % 65536 := by
  have hlt : (value % 65536).toNat < 65536 := by omega
  rw [ofValue, UInt16.toNat_ofNat', Nat.mod_eq_of_lt hlt]
  omega

namespace Assembly

/-- The analysed record `q` has at position `j` what became of an operand of the source. -/
inductive Carries (a : Analysis) (q : Record) (j : Nat) : Operand → Prop
  | number {value : Int} (operand : q.operands[j]? = some (.resolved value))
      (word : ∀ ws, q.words = .ok ws → ∃ w, ws[q.body.headWords.length + j]? = some w ∧
        (w.toNat : Int) = value % 65536) : Carries a q j (.resolved value)
  | symbol {name : String} {span : Span}
      (operand : q.operands[j]? =
        some ((Operand.symbol name span).resolve .exact a.labels q.scope)) :
      Carries a q j (.symbol name span)
  | literal {l : Literal} {span : Span} {name : String} {first : Nat}
      (operand : q.operands[j]? = some ((Operand.symbol name span).resolve .exact a.labels q.scope))
      (label : a.generated[first]?.bind (·.label) = some name)
      (words : ∀ i value, l.words[i]? = some value → ∃ g w, a.generated[first + i]? = some g ∧
        g.words = .ok [w] ∧ (w.toNat : Int) = value % 65536) : Carries a q j (.literal l span)

theorem exists_word_of_number {q : Record} {j : Nat} {value : Int}
    (hoperand : q.operands[j]? = some (.resolved value)) {ws : List Word} (h : q.words = .ok ws) :
    ∃ w, ws[q.body.headWords.length + j]? = some w ∧ (w.toNat : Int) = value % 65536 := by
  obtain ⟨w, hw, hword⟩ := Record.getElem?_of_words h hoperand
  refine ⟨w, hw, ?_⟩
  rw [(Operand.word_resolved_eq_ok hword).2, Word.toNat_ofValue]

section

variable (scoping : Bool) {rs : List Record}

/-- The data of a literal is labelled with the name of the literal. -/
theorem label_generated {k : Nat} {o : Occurrence} (ho : (occurrences rs)[k]? = some o)
    (hne : o.literal.words ≠ []) :
    (layout scoping rs).generated[LiteralPool.wordsBefore rs k]?.bind (·.label) =
      some (LiteralPool.literalName (k + 1)) := by
  obtain ⟨g, hg, hname⟩ := LiteralPool.exists_named ho hne
  rw [getElem?_generated_layout, hg]
  exact hname

/-- The data of a literal has the words of the literal. -/
theorem exists_word_generated {k : Nat} {o : Occurrence} (ho : (occurrences rs)[k]? = some o)
    (hwf : o.literal.WellFormed) {i : Nat} {value : Int}
    (hvalue : o.literal.words[i]? = some value) :
    ∃ g w, (layout scoping rs).generated[LiteralPool.wordsBefore rs k + i]? = some g ∧
      g.words = .ok [w] ∧ (w.toNat : Int) = value % 65536 := by
  have hslice := Traversal.slice_flatMap (f := fun o : Occurrence => o.literal.words) ho
  have hi : i < o.literal.words.length := (List.getElem?_eq_some_iff.1 hvalue).1
  have hplace : (LiteralPool.values rs)[LiteralPool.wordsBefore rs k + i]? = some value :=
    (Traversal.getElem?_of_slice hslice hi).trans hvalue
  have hbody := congrArg (·[LiteralPool.wordsBefore rs k + i]?) (map_body_layout scoping rs)
  rw [List.getElem?_map, LiteralPool.dataBodies, List.getElem?_map, hplace] at hbody
  obtain ⟨g, hg, hdata⟩ := Option.map_eq_some_iff.1 hbody
  have hfits : Word.fits value = true := hwf.fits value (List.mem_of_getElem? hvalue)
  refine ⟨g, .ofValue value, hg, ?_, Word.toNat_ofValue value⟩
  rw [Record.words, hdata]
  dsimp only
  rw [Operand.word_resolved hfits]
  rfl

end

/-- An analysed program carries every operand of its records. -/
theorem carries_analyzeRecords (scoping : Bool) {reading : Statement.Reading}
    (hrs : ∀ r ∈ reading.records, r.WellFormed) {i j : Nat} {r : Record}
    (hr : reading.records[i]? = some r) {operand : Operand}
    (hoperand : r.operands[j]? = some operand) :
    ∃ q, (analyzeRecords scoping reading).records[i]? = some q ∧
      Carries (analyzeRecords scoping reading) q j operand := by
  refine ⟨(placed scoping reading.records i r).resolve .exact (labels scoping reading.records),
    ?_, ?_⟩
  · rw [records_analyzeRecords, List.getElem?_map, getElem?_layout, hr]
    rfl
  have hresolved : ((placed scoping reading.records i r).resolve .exact
      (labels scoping reading.records)).operands[j]? = some ((operand.pooled
        (((reading.records.take i).map Record.literalCount).sum +
          ((r.operands.take j).map Operand.literalCount).sum)).resolve .exact
            (labels scoping reading.records) (placed scoping reading.records i r).scope) := by
    rw [Record.resolve, Record.operands_mapOperands, List.getElem?_map, getElem?_operands_placed,
      hoperand]
    rfl
  cases operand with
  | resolved value => exact .number hresolved fun ws => exists_word_of_number hresolved
  | symbol name span => exact .symbol hresolved
  | literal l span =>
    have hmem := Occurrence.mem_occurrences hr hoperand
    obtain ⟨k, hk⟩ := List.mem_iff_getElem?.1 hmem
    obtain ⟨r', span', hr', -, hoperand', hcount⟩ := Occurrence.getElem?_occurrences hk
    cases hr.symm.trans hr'
    have hwf := Occurrence.wellFormed_literal hrs hmem
    rw [← hcount] at hresolved
    exact .literal hresolved (label_generated scoping hk hwf.nonempty)
      fun _ _ hvalue => exists_word_generated scoping hk hwf hvalue

/-- The records of a line stand behind those of the lines before it. -/
theorem exists_before {gr8 : Bool} {lines : List String} {all reading : Statement.Reading}
    (hall : readLines gr8 lines = .ok all) {number : Nat} {source : String}
    (hsource : lines[number]? = some source) (hread : readLine gr8 number source = .ok reading) :
    ∃ before, readLines gr8 (lines.take number) = .ok before ∧
      ∀ i r, reading.records[i]? = some r → all.records[before.records.length + i]? = some r := by
  obtain ⟨readings, hreadings, rfl⟩ := forall₂_of_readLines hall
  have hnumbered : lines.zipIdx[number]? = some (source, number) := by
    rw [List.getElem?_zipIdx, hsource]
    simp
  have hmapM := Traversal.mapM_eq_ok_iff.2 hreadings
  obtain ⟨reading', hreading', hread'⟩ := Traversal.getElem?_of_mapM hmapM hnumbered
  cases hread.symm.trans hread'
  have htake : (lines.take number).zipIdx = lines.zipIdx.take number := by
    refine List.ext_getElem? fun i => ?_
    rw [List.getElem?_zipIdx, List.getElem?_take, List.getElem?_take, List.getElem?_zipIdx]
    split <;> rfl
  have hbefore := List.forall₂_take number hreadings
  rw [← htake] at hbefore
  refine ⟨_, readLines_of_forall₂ hbefore, ?_⟩
  intro i r hr
  have hslice := Traversal.slice_flatMap (f := Statement.Reading.records) hreading'
  have hi : i < reading.records.length := (List.getElem?_eq_some_iff.1 hr).1
  rw [List.length_flatMap]
  exact (Traversal.getElem?_of_slice hslice hi).trans hr

/-- The program carries every operand of a line, at the place of the line. -/
theorem exists_carries (options : Options) {lines : List String} {number : Nat} {source : String}
    (hsource : lines[number]? = some source) {reading : Statement.Reading}
    (hread : readLine options.gr8 number source = .ok reading) :
    ∃ a before, analyze options lines = .ok a ∧
      readLines options.gr8 (lines.take number) = .ok before ∧
      ∀ i j r operand, reading.records[i]? = some r → r.operands[j]? = some operand →
        ∃ q, a.records[before.records.length + i]? = some q ∧ Carries a q j operand := by
  obtain ⟨all, hall, hrs⟩ := exists_readLines options.gr8 lines
  obtain ⟨before, hbefore, hplace⟩ := exists_before hall hsource hread
  refine ⟨analyzeRecords options.scoping all, before, ?_, hbefore, ?_⟩
  · rw [analyze, hall]
    rfl
  · intro i j r operand hr hoperand
    exact carries_analyzeRecords options.scoping hrs (hplace i r hr) hoperand

end Assembly

end Comet
