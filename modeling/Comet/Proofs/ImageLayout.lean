import Comet.Proofs.Denotation

/-!
# The layout of an image

An image is a header of eight words and then the words of every record at its address,
one record after another. `Assembled` takes an assembled program apart into what the
phases made of it, and what an image holds at a record is read off there. The last
part is about the first word of the header, which is where execution begins.
-/

namespace Comet

namespace Image

/-- The record `t` at place `k` has the label in the scope, and no other record does. -/
structure IsOnlyLabel (records : List Record) (name : String) (scope k : Nat) (t : Record) :
    Prop where
  record : records[k]? = some t
  label_eq : t.label = some name
  scope_eq : t.scope = scope
  unique : ∀ (k' : Nat) (t' : Record), records[k']? = some t' → t'.label = some name →
    t'.scope = scope → k' = k

/-- The image of records as its addresses describe it. -/
structure IsLaidOut (records : List Record) (w : List Word) : Prop where
  length : w.length = 8 + (records.map Record.byteLength).sum / 2
  offset : ∀ i r, records[i]? = some r →
    r.offset = ((records.take i).map Record.byteLength).sum ∧ r.offset % 2 = 0
  words : ∀ r ∈ records, ∃ ws, r.words = .ok ws ∧ ws.length = r.byteLength / 2 ∧
    (w.drop (8 + r.address)).take (r.byteLength / 2) = ws
  header : ∀ i, 1 ≤ i → i < 8 → w[i]? = some 0
  /-- A program that begins without a label begins at its first word. -/
  unlabelled : records.head?.bind (·.label) = none → w[0]? = some 0
  /-- So does one that begins with a start without an entry. -/
  start : ∀ r, records.head? = some r → r.body = .start none → w[0]? = some 0
  /-- A labelled start with an entry begins the program at that entry. -/
  entry : ∀ r name target span, records.head? = some r → r.label = some name →
    r.body = .start (some (.symbol target span)) →
    ∃ k t word, IsOnlyLabel records target 1 k t ∧ w[0]? = some word ∧ word.toNat = t.address

end Image

namespace Assembly

/-- An assembled program, taken apart. -/
structure Assembled (scoping : Bool) (rs records : List Record) (entry : Word)
    (code : List Word) : Prop where
  wellFormed : ∀ r ∈ rs, r.WellFormed
  errorFree : ErrorFree scoping rs
  records_eq : records = (layout scoping rs).records.map
    (Record.resolve .exact (labels scoping rs)) ++ (layout scoping rs).generated
  entryPoint_eq : Image.entryPoint ((layout scoping rs).records.map
    (Record.resolve .exact (labels scoping rs))) (labels scoping rs) = .ok entry
  code_eq : Image.code records = .ok code

theorem assembled_of_compile {options : Options} {lines : List String}
    {reading : Statement.Reading} {c : Compilation} {w : List Word}
    (hread : readLines options.gr8 lines = .ok reading) (hc : compile options lines = .ok c)
    (hw : c.words = some w) :
    ∃ entry code, Assembled options.scoping reading.records c.records entry code ∧
      w = Image.ofCode entry code := by
  obtain ⟨reading', hread', hrs⟩ := exists_readLines options.gr8 lines
  cases hread.symm.trans hread'
  obtain ⟨herrors, hrecords, -, himage⟩ := compile_eq_ok hread hc hw
  obtain ⟨entry, code, hentry, hcode, rfl⟩ := Image.ofRecords_eq_ok.1 himage
  exact ⟨entry, code, ⟨hrs, errorFree_of_analyzeRecords herrors, hrecords, hentry,
    hrecords ▸ hcode⟩, rfl⟩

namespace Assembled

variable {scoping : Bool} {rs records : List Record} {entry : Word} {code : List Word}
  (h : Assembled scoping rs records entry code)
include h

theorem getElem?_of_layout {i : Nat} {r : Record} (hr : (layout scoping rs).records[i]? = some r) :
    records[i]? = some (r.resolve .exact (labels scoping rs)) := by
  have hmap : ((layout scoping rs).records.map (Record.resolve .exact (labels scoping rs)))[i]? =
      some (r.resolve .exact (labels scoping rs)) := by
    rw [List.getElem?_map, hr]
    rfl
  rw [h.records_eq, List.getElem?_append_left (List.getElem?_eq_some_iff.1 hmap).1]
  exact hmap

theorem getElem?_records {i : Nat} {p : Record} (hp : rs[i]? = some p) :
    records[i]? = some ((placed scoping rs i p).resolve .exact (labels scoping rs)) := by
  apply h.getElem?_of_layout
  rw [getElem?_layout, hp]
  rfl

/-- A record comes from the source text or holds a word of a literal. -/
theorem getElem?_cases {i : Nat} {r : Record} (hr : records[i]? = some r) :
    (∃ p, rs[i]? = some p ∧ r = (placed scoping rs i p).resolve .exact (labels scoping rs)) ∨
      r ∈ (layout scoping rs).generated := by
  have hsplit := hr
  rw [h.records_eq, List.getElem?_append] at hsplit
  split at hsplit
  · rw [List.getElem?_map, getElem?_layout, Option.map_map, Option.map_eq_some_iff] at hsplit
    obtain ⟨p, hp, rfl⟩ := hsplit
    exact .inl ⟨p, hp, rfl⟩
  · exact .inr (List.mem_of_getElem? hsplit)

theorem isMeasured : ∀ r ∈ records, r.IsMeasured := by
  intro r hr
  obtain ⟨i, hi⟩ := List.mem_iff_getElem?.1 hr
  rcases h.getElem?_cases hi with ⟨p, hp, rfl⟩ | hgenerated
  · have hmeasured := (h.wellFormed p (List.mem_of_getElem? hp)).isMeasured
    simpa [Record.IsMeasured] using hmeasured
  · obtain ⟨value, -, hbody⟩ := exists_value_of_mem_generated hgenerated
    rw [Record.IsMeasured, Record.byteLength, Record.wordCount, hbody]
    rfl

theorem isPlaced : Layout.IsPlaced 0 records := by
  have hplaced := Layout.isPlaced_append.1 (Layout.isPlaced_ofRecords scoping
    (LiteralPool.ofRecords 0 rs).records (LiteralPool.ofRecords 0 rs).generated)
  rw [h.records_eq]
  refine Layout.isPlaced_append.2 ⟨hplaced.1.map (fun _ => rfl) (Record.byteLength_resolve _ _), ?_⟩
  have hlengths : Record.byteLength ∘ Record.resolve .exact (labels scoping rs) =
      Record.byteLength :=
    funext (Record.byteLength_resolve _ _)
  rw [List.map_map, hlengths]
  exact hplaced.2

theorem holds {i : Nat} {r : Record} (hr : records[i]? = some r) : ∃ u, Image.Holds code r u :=
  Image.holds_of_code h.code_eq h.isMeasured h.isPlaced hr

/-- The word of a name is the address of its label. -/
theorem exists_address_word {i j : Nat} {p : Record} (hp : rs[i]? = some p) {name : String}
    {span : Span} (hoperand : (placed scoping rs i p).operands[j]? = some (.symbol name span)) :
    ∃ r word, records[i]? = some r ∧
      code[r.address + (p.body.headWords.length + j)]? = some word ∧
      (labels scoping rs).address? name (scopeAt scoping rs i) = some word.toNat := by
  obtain ⟨address, haddress, -⟩ :=
    h.errorFree.exists_address (placed_mem_layout hp) (List.mem_of_getElem? hoperand)
  have hr := h.getElem?_records hp
  obtain ⟨u, hu⟩ := h.holds hr
  have hresolved : ((placed scoping rs i p).resolve .exact (labels scoping rs)).operands[j]? =
      some (.resolved address) := by
    rw [Record.resolve, Record.operands_mapOperands, List.getElem?_map, hoperand, Option.map_some,
      Operand.resolve, haddress]
    rfl
  have hhead : ((placed scoping rs i p).resolve .exact (labels scoping rs)).body.headWords =
      p.body.headWords := by
    simp [Record.resolve, Record.mapOperands, placed, Record.pooled]
  obtain ⟨hword, hfits⟩ := hu.getElem?_operand hresolved
  rw [hhead] at hword
  refine ⟨_, _, hr, hword, ?_⟩
  rw [Word.toNat_ofValue_natCast hfits]
  exact haddress

/-! ## The entry of a program -/

omit h in
theorem body_eq_start {t : LabelTable} {i : Nat} {p : Record} {target : Option Operand} :
    ((placed scoping rs i p).resolve .exact t).body = .start target ↔ p.body = .start target := by
  simp [Record.resolve, Record.mapOperands, placed, Record.pooled]

/-- A program has a first record only if its source text does. -/
theorem head?_cases {r : Record} (hr : records.head? = some r) :
    ∃ p, rs[0]? = some p ∧ r = (placed scoping rs 0 p).resolve .exact (labels scoping rs) := by
  cases rs with
  | nil =>
    rw [h.records_eq] at hr
    cases hr
  | cons p rs =>
    refine ⟨p, rfl, ?_⟩
    rw [List.head?_eq_getElem?, h.getElem?_records rfl] at hr
    exact (Option.some.inj hr).symm

theorem entry_eq_zero (hlabel : records.head?.bind (·.label) = none) : entry = 0 := by
  have hentry := h.entryPoint_eq
  rw [Image.entryPoint_of_unlabelled] at hentry
  · exact (Except.ok.inj hentry).symm
  · rw [h.records_eq, List.head?_append] at hlabel
    cases hhead : ((layout scoping rs).records.map
        (Record.resolve .exact (labels scoping rs))).head? with
    | none => rfl
    | some r => simpa [hhead] using hlabel

/-- A program that begins with a label begins at what the label denotes. -/
theorem exists_denoted_entry {p : Record} (hp : rs[0]? = some p) {name : String}
    (hname : p.label = some name) :
    ∃ k target, records[k]? = some target ∧ Denotes scoping rs name 1 k ∧
      entry.toNat = target.address := by
  have hlabel : IsLabelName name :=
    (h.wellFormed p (List.mem_of_getElem? hp)).label name hname
  have hhead : ((layout scoping rs).records.map
      (Record.resolve .exact (labels scoping rs))).head?.bind (·.label) = some name := by
    rw [List.head?_eq_getElem?, List.getElem?_map, getElem?_layout, hp]
    exact hname
  obtain ⟨k, target, htarget, hdenotes, haddress⟩ := h.errorFree.exists_denoted h.wellFormed hlabel
    (Image.address?_of_entryPoint hhead h.entryPoint_eq)
  exact ⟨k, _, h.getElem?_of_layout htarget, hdenotes, haddress.symm⟩

theorem entry_of_start {p : Record} (hp : rs[0]? = some p) (hbody : p.body = .start none) :
    entry = 0 := by
  cases hname : p.label with
  | none =>
    apply h.entry_eq_zero
    rw [List.head?_eq_getElem?, h.getElem?_records hp]
    exact hname
  | some name =>
    -- The label denotes the start itself, and nothing is emitted before it.
    obtain ⟨k, target, htarget, hdenotes, haddress⟩ := h.exists_denoted_entry hp hname
    have hstart : Denotes scoping rs name 1 0 := by
      simpa [scopeAt] using h.errorFree.denotes_start hp hname hbody
    obtain rfl := h.errorFree.denotes_unique hdenotes hstart
    rw [h.getElem?_records hp] at htarget
    cases htarget
    have hzero : entry.toNat = 0 := by
      rw [haddress]
      simp [Record.address, Record.resolve, Record.mapOperands, placed]
    exact UInt16.toNat_inj.1 hzero

/-- A label of the source text stands at one place of a scope, and never at pooled data. -/
theorem unique_label {k k' : Nat} {t' : Record} {name : String} {d : Declaration}
    (hname : IsLabelName name) (hk : DeclaresAt rs k name d)
    (ht' : records[k']? = some t') (hlabel : t'.label = some name)
    (hscope : t'.scope = scopeAt scoping rs k) : k' = k := by
  rcases h.getElem?_cases ht' with ⟨p, hp, rfl⟩ | hgenerated
  · exact h.errorFree.declaresAt_unique ⟨p, hp, hlabel, rfl⟩ hk (.inl hscope)
  · exact absurd hname (not_isLabelName_of_mem_generated h.wellFormed hgenerated hlabel)

theorem entry_of_redirection {p : Record} (hp : rs[0]? = some p) {name target : String}
    {span : Span} (hname : p.label = some name)
    (hbody : p.body = .start (some (.symbol target span))) :
    ∃ k t, Image.IsOnlyLabel records target 1 k t ∧ entry.toNat = t.address := by
  have hd : p.declaration = .redirection target := by rw [Record.declaration, hbody]
  obtain ⟨_, _, htarget, hlabel⟩ := (h.wellFormed p (List.mem_of_getElem? hp)).entry _ hbody
  cases htarget
  obtain ⟨k, t, ht, hdenotes, haddress⟩ := h.exists_denoted_entry hp hname
  obtain ⟨hk, hscope⟩ := h.errorFree.declaresAt_of_redirection ⟨p, hp, hname, hd⟩ hdenotes
  have hone : scopeAt scoping rs k = 1 := by simpa [scopeAt] using hscope
  obtain ⟨q, hq, hlabel', -⟩ := id hk
  have ht' := ht
  rw [h.getElem?_records hq] at ht'
  cases ht'
  refine ⟨k, _, ⟨ht, hlabel', hone, fun k' t' ht' hname' hscope' => ?_⟩, haddress⟩
  exact h.unique_label hlabel hk ht' hname' (hscope'.trans hone.symm)

end Assembled

/-- The image of an assembled program has every record at its address, behind a header
that holds the entry of the program. -/
theorem isLaidOut_of_compile {options : Options} {lines : List String} {c : Compilation}
    {w : List Word} (hc : compile options lines = .ok c) (hw : c.words = some w) :
    Image.IsLaidOut c.records w := by
  obtain ⟨reading, hread, -⟩ := exists_readLines options.gr8 lines
  obtain ⟨entry, code, h, rfl⟩ := assembled_of_compile hread hc hw
  constructor
  case length =>
    rw [Image.length_ofCode, ← Image.length_of_code h.code_eq h.isMeasured]
    omega
  case offset =>
    intro i r hr
    obtain ⟨u, hu⟩ := h.holds hr
    refine ⟨by simpa using h.isPlaced.offset_eq hr, ?_⟩
    rw [hu.offset]
    omega
  case words =>
    intro r hr
    obtain ⟨i, hi⟩ := List.mem_iff_getElem?.1 hr
    obtain ⟨u, hu⟩ := h.holds hi
    have hlength : u.length = r.byteLength / 2 := by
      have hmeasured : r.byteLength = 2 * r.wordCount := h.isMeasured r hr
      rw [Record.length_of_words hu.words]
      omega
    refine ⟨u, hu.words, hlength, ?_⟩
    rw [Image.drop_ofCode, ← hlength, hu.slice]
  case header => exact fun i h1 h8 => Image.getElem?_ofCode_header entry code h1 h8
  case unlabelled =>
    intro hlabel
    exact congrArg some (h.entry_eq_zero hlabel)
  case start =>
    intro r hr hbody
    obtain ⟨p, hp, rfl⟩ := h.head?_cases hr
    exact congrArg some (h.entry_of_start hp (Assembled.body_eq_start.1 hbody))
  case entry =>
    intro r name target span hr hname hbody
    obtain ⟨p, hp, rfl⟩ := h.head?_cases hr
    obtain ⟨k, t, ht, haddress⟩ :=
      h.entry_of_redirection hp hname (Assembled.body_eq_start.1 hbody)
    exact ⟨k, t, entry, ht, rfl, haddress⟩

/-- Two subroutines with a label of the same name, the first of which has an entry and
two literals. -/
def twoSubroutines : List String :=
  ["MAIN START BEGIN", "BUF DS 2", "BEGIN LAD GR1,BUF", " OUT ='AB',=2", " CALL SUB", " RET",
    " END", "SUB START", "BUF DC 'A',-1", " LD GR1,BUF", " CALL MAIN", " RET", " END"]

/-- Its image, if every subroutine has a scope of its own. -/
def twoSubroutinesImage : List Word :=
  [2, 0, 0, 0, 0, 0, 0, 0, 0, 0, 0x1210, 0, 0x9100, 17, 19, 0x8000, 10, 0x8100, 65, 0xFFFF,
    0x1010, 10, 0x8000, 2, 0x8100, 65, 66, 2]

theorem exists_compile_twoSubroutines :
    ∃ c, compile { scoping := true } twoSubroutines = .ok c ∧
      c.words = some twoSubroutinesImage := by
  have hwords : (compile { scoping := true } twoSubroutines).toOption.bind (·.words) =
      some twoSubroutinesImage := by decide +kernel
  cases hc : compile { scoping := true } twoSubroutines with
  | error e => simp [hc, Except.toOption] at hwords
  | ok c => exact ⟨c, rfl, by simpa [hc, Except.toOption] using hwords⟩

theorem isLaidOut_twoSubroutines :
    ∃ c, compile { scoping := true } twoSubroutines = .ok c ∧
      c.words = some twoSubroutinesImage ∧ Image.IsLaidOut c.records twoSubroutinesImage := by
  obtain ⟨c, hc, hw⟩ := exists_compile_twoSubroutines
  exact ⟨c, hc, hw, isLaidOut_of_compile hc hw⟩

end Assembly

end Comet
