import Comet.Proofs.ImageLayout

/-!
# The words of literals

A literal in a source text stands for the address of its words. `IsPooled` says where
these words are: behind those of all records, one literal after another in the order
in which they stand in the program, up to the end of the image. The names that pooling
makes up for them are different from each other and from all names of the source text.
-/

namespace Comet

/-- The name that an operand is. -/
def Operand.name? : Operand → Option String
  | symbol name _ => some name
  | _ => none

/-- The entry of a start. -/
def Body.target? : Body → Option Operand
  | start target => target
  | _ => none

namespace Record

/-- The names that a record of a source text has. -/
def names (r : Record) : List String :=
  r.label.toList ++ (r.operands ++ r.body.target?.toList).filterMap Operand.name?

theorem WellFormed.isLabelName {r : Record} (h : r.WellFormed) {name : String}
    (hname : name ∈ r.names) : IsLabelName name := by
  rcases List.mem_append.1 hname with hlabel | hother
  · exact h.label name (Option.mem_toList.1 hlabel)
  · obtain ⟨operand, hoperand, hsymbol⟩ := List.mem_filterMap.1 hother
    cases operand with
    | resolved value => cases hsymbol
    | literal l span => cases hsymbol
    | symbol name' span =>
      cases hsymbol
      rcases List.mem_append.1 hoperand with hoperand | hentry
      · exact h.operands _ hoperand
      · cases hbody : r.body with
        | start target =>
          rw [hbody] at hentry
          obtain ⟨_, _, htarget, hlabel⟩ :=
            h.entry _ (hbody.trans (congrArg _ (Option.mem_toList.1 hentry)))
          cases htarget
          exact hlabel
        | _ => simp [hbody, Body.target?] at hentry

theorem words_of_data {r : Record} {value : Int} {ws : List Word}
    (hbody : r.body = .data (.resolved value)) (h : r.words = .ok ws) : ws = [.ofValue value] := by
  rw [words, hbody] at h
  obtain ⟨word, hword, h⟩ := Traversal.bind_eq_ok.1 h
  cases h
  rw [(Operand.word_resolved_eq_ok hword).2]

end Record

namespace Image

/-- The code of data is the data itself. -/
theorem code_of_dataBodies {rs : List Record} {values : List Int} {ws : List Word}
    (hbodies : rs.map (·.body) = LiteralPool.dataBodies values) (h : code rs = .ok ws) :
    ws = values.map Word.ofValue := by
  induction rs generalizing values ws with
  | nil =>
    rw [code_nil_eq_ok.1 h]
    cases values with
    | nil => rfl
    | cons value values => cases hbodies
  | cons r rs ih =>
    cases values with
    | nil => cases hbodies
    | cons value values =>
      obtain ⟨hbody, hbodies⟩ := List.cons.inj hbodies
      obtain ⟨u, v, hu, hv, rfl⟩ := code_cons_eq_ok.1 h
      rw [Record.words_of_data hbody hu, ih hbodies hv]
      rfl

end Image

namespace LiteralPool

/-- The address of the words of a literal, by the number of literals before it. -/
def addressOf (rs : List Record) (k : Nat) : Nat :=
  (rs.map Record.byteLength).sum / 2 + wordsBefore rs k

theorem addressOf_succ {rs : List Record} {k : Nat} {o : Occurrence}
    (h : (occurrences rs)[k]? = some o) :
    addressOf rs (k + 1) = addressOf rs k + o.literal.words.length := by
  rw [addressOf, wordsBefore_succ h, addressOf, Nat.add_assoc]

theorem addressOf_mono (rs : List Record) {k k' : Nat} (h : k ≤ k') :
    addressOf rs k ≤ addressOf rs k' :=
  Nat.add_le_add_left (wordsBefore_mono rs h) _

/-- Where an image has the literals of a source text. -/
structure IsPooled (rs records : List Record) (w : List Word) : Prop where
  /-- Every literal of the source text is counted, -/
  complete : ∀ (i j : Nat) (p : Record) (l : Literal) (span : Span), rs[i]? = some p →
    p.operands[j]? = some (.literal l span) → ⟨i, j, p.line, l⟩ ∈ occurrences rs
  /-- in the order of the program. -/
  ordered : (occurrences rs).Pairwise Occurrence.Before
  /-- The word of a literal is the address of its own words. -/
  operand : ∀ k o, (occurrences rs)[k]? = some o →
    ∃ (p r : Record) (span : Span) (word : Word), rs[o.place]? = some p ∧
      p.operands[o.position]? = some (.literal o.literal span) ∧ records[o.place]? = some r ∧
      w[8 + (r.address + (p.body.headWords.length + o.position))]? = some word ∧
      word.toNat = addressOf rs k
  words : ∀ k o, (occurrences rs)[k]? = some o → o.literal.words ≠ [] ∧
    (w.drop (8 + addressOf rs k)).take o.literal.words.length =
      o.literal.words.map Word.ofValue
  /-- The words of one literal are followed by those of the next one, -/
  adjacent : ∀ k o, (occurrences rs)[k]? = some o →
    addressOf rs (k + 1) = addressOf rs k + o.literal.words.length
  /-- so no two literals share a word, -/
  disjoint : ∀ k k' o, k < k' → (occurrences rs)[k]? = some o →
    addressOf rs k + o.literal.words.length ≤ addressOf rs k'
  /-- and the image ends with the last of them. -/
  length : w.length = 8 + addressOf rs (occurrences rs).length
  /-- The names of the literals label their data. -/
  labels : (records.drop rs.length).filterMap (·.label) = literalNames (occurrences rs).length
  distinct : (literalNames (occurrences rs).length).Nodup
  fresh : ∀ p ∈ rs, ∀ name ∈ p.names, name ∉ literalNames (occurrences rs).length

end LiteralPool

namespace Assembly.Assembled

variable {scoping : Bool} {rs records : List Record} {entry : Word} {code : List Word}

/-- The data of a literal is at the address that the literals before it give. -/
theorem exists_generated {k : Nat} {o : Occurrence} (ho : (occurrences rs)[k]? = some o)
    (hne : o.literal.words ≠ []) :
    ∃ g ∈ (layout scoping rs).generated, g.label = some (LiteralPool.literalName (k + 1)) ∧
      g.address = LiteralPool.addressOf rs k := by
  obtain ⟨g, hg, hname⟩ := LiteralPool.exists_named ho hne
  have hlaidOut := getElem?_generated_layout scoping rs (LiteralPool.wordsBefore rs k)
  have hlt : k < (occurrences rs).length := (List.getElem?_eq_some_iff.1 ho).1
  have hle : LiteralPool.wordsBefore rs k ≤ (LiteralPool.values rs).length := by
    rw [← LiteralPool.wordsBefore_length]
    exact LiteralPool.wordsBefore_mono rs (Nat.le_of_lt hlt)
  -- All pooled records are of one word, so the words before this one count as records.
  rw [hg, List.map_take, LiteralPool.map_byteLength_generated, List.take_replicate,
    Nat.min_eq_left hle, List.sum_replicate_nat] at hlaidOut
  refine ⟨_, List.mem_of_getElem? hlaidOut, hname, ?_⟩
  rw [Record.address, LiteralPool.addressOf]
  dsimp only
  omega

variable (h : Assembled scoping rs records entry code)
include h

/-- The code of the records is followed by the words of the literals. -/
theorem exists_code_eq : ∃ u, u.length = (rs.map Record.byteLength).sum / 2 ∧
    code = u ++ (LiteralPool.values rs).map Word.ofValue := by
  have hcode := h.code_eq
  rw [h.records_eq] at hcode
  obtain ⟨u, v, hu, hv, rfl⟩ := Image.code_append_eq_ok.1 hcode
  have hlength := Image.length_of_code hu fun r hr =>
    h.isMeasured r (h.records_eq ▸ List.mem_append_left _ hr)
  have hlengths : Record.byteLength ∘ Record.resolve .exact (labels scoping rs) =
      Record.byteLength :=
    funext (Record.byteLength_resolve _ _)
  rw [List.map_map, hlengths, map_byteLength_layout] at hlength
  refine ⟨u, by omega, ?_⟩
  rw [Image.code_of_dataBodies (map_body_layout scoping rs) hv]

/-- The word of a literal is the address of its data. -/
theorem exists_literal_word {k : Nat} {o : Occurrence} (ho : (occurrences rs)[k]? = some o) :
    ∃ p r span word, rs[o.place]? = some p ∧
      p.operands[o.position]? = some (.literal o.literal span) ∧ records[o.place]? = some r ∧
      code[r.address + (p.body.headWords.length + o.position)]? = some word ∧
      word.toNat = LiteralPool.addressOf rs k := by
  obtain ⟨p, span, hp, -, hoperand, hk⟩ := Occurrence.getElem?_occurrences ho
  have hne := Occurrence.nonempty_literals h.wellFormed o (List.mem_of_getElem? ho)
  obtain ⟨g, hg, hname, haddress⟩ := exists_generated ho hne
  have hnamed : (placed scoping rs o.place p).operands[o.position]? =
      some (.symbol (LiteralPool.literalName (k + 1)) span) := by
    rw [getElem?_operands_placed, hoperand, hk]
    rfl
  obtain ⟨r, word, hr, hword, hlookup⟩ := h.exists_address_word hp hnamed
  rw [h.errorFree.address?_generated h.wellFormed hg hname] at hlookup
  refine ⟨p, r, span, word, hp, hoperand, hr, hword, ?_⟩
  rw [← haddress]
  exact (Option.some.inj hlookup).symm

/-- The words of a literal are at its address. -/
theorem slice_code {k : Nat} {o : Occurrence} (ho : (occurrences rs)[k]? = some o) :
    (code.drop (LiteralPool.addressOf rs k)).take o.literal.words.length =
      o.literal.words.map Word.ofValue := by
  obtain ⟨u, hu, hcode⟩ := h.exists_code_eq
  have hslice := congrArg (List.map Word.ofValue)
    (Traversal.slice_flatMap (f := fun o : Occurrence => o.literal.words) ho)
  rw [List.map_take, List.map_drop] at hslice
  rw [hcode, LiteralPool.addressOf, ← hu, ← List.drop_drop, List.drop_left]
  exact hslice

theorem length_code : code.length = LiteralPool.addressOf rs (occurrences rs).length := by
  obtain ⟨u, hu, hcode⟩ := h.exists_code_eq
  rw [hcode, List.length_append, List.length_map, hu, LiteralPool.addressOf,
    LiteralPool.wordsBefore_length]

/-- The records behind those of the source text are the pooled data. -/
theorem drop_records : records.drop rs.length = (layout scoping rs).generated := by
  have hlength := congrArg List.length (map_byteLength_layout scoping rs)
  rw [List.length_map, List.length_map] at hlength
  rw [h.records_eq, List.drop_append_of_le_length (by simp [hlength]),
    List.drop_of_length_le (by simp [hlength]), List.nil_append]

end Assembly.Assembled

namespace Assembly

/-- Every literal of a program stands for the address of its own words. -/
theorem isPooled_of_compile {options : Options} {lines : List String} {c : Compilation}
    {w : List Word} (hc : compile options lines = .ok c) (hw : c.words = some w) :
    ∃ reading, readLines options.gr8 lines = .ok reading ∧
      LiteralPool.IsPooled reading.records c.records w := by
  obtain ⟨reading, hread, hrs⟩ := exists_readLines options.gr8 lines
  obtain ⟨entry, code, h, rfl⟩ := assembled_of_compile hread hc hw
  refine ⟨reading, hread, ?_⟩
  constructor
  case complete => exact fun i j p l span hp hoperand => Occurrence.mem_occurrences hp hoperand
  case ordered => exact Occurrence.pairwise_before _
  case operand =>
    intro k o ho
    obtain ⟨p, r, span, word, hp, hoperand, hr, hword, haddress⟩ := h.exists_literal_word ho
    refine ⟨p, r, span, word, hp, hoperand, hr, ?_, haddress⟩
    rw [Image.getElem?_ofCode]
    exact hword
  case words =>
    intro k o ho
    refine ⟨Occurrence.nonempty_literals hrs o (List.mem_of_getElem? ho), ?_⟩
    rw [Image.drop_ofCode]
    exact h.slice_code ho
  case adjacent => exact fun k o ho => LiteralPool.addressOf_succ ho
  case disjoint =>
    intro k k' o hlt ho
    rw [← LiteralPool.addressOf_succ ho]
    exact LiteralPool.addressOf_mono _ hlt
  case length => rw [Image.length_ofCode, h.length_code]
  case labels =>
    rw [h.drop_records]
    exact filterMap_label_layout _ hrs
  case distinct => exact LiteralPool.nodup_literalNames _
  case fresh =>
    intro p hp name hname hmem
    exact LiteralPool.not_isLabelName_of_mem hmem ((hrs p hp).isLabelName hname)

theorem isPooled_twoSubroutines :
    ∃ c reading, compile { scoping := true } twoSubroutines = .ok c ∧
      c.words = some twoSubroutinesImage ∧ readLines false twoSubroutines = .ok reading ∧
      (occurrences reading.records).map (·.literal.words) = [[65, 66], [2]] ∧
      LiteralPool.IsPooled reading.records c.records twoSubroutinesImage := by
  obtain ⟨c, hc, hw⟩ := exists_compile_twoSubroutines
  obtain ⟨reading, hread, hpooled⟩ := isPooled_of_compile hc hw
  replace hread : readLines false twoSubroutines = .ok reading := hread
  have hliterals : (readLines false twoSubroutines).toOption.map (fun reading =>
      (occurrences reading.records).map (·.literal.words)) = some [[65, 66], [2]] := by
    decide +kernel
  rw [hread] at hliterals
  exact ⟨c, reading, hc, hw, hread, Option.some.inj hliterals, hpooled⟩

end Assembly

end Comet
