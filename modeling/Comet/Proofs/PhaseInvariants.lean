import Comet.Proofs.RecordAgreement

/-!
# What every phase keeps

Between reading and encoding, a program passes through phases that replace operands: literals
become names, and names become addresses. A record keeps its row of the instruction table through
all of them, and with it its length, which was fixed when the record was made (`IsSound`). Its
operands change only as `Operand.Becomes` allows, and `Upholds` puts both together.

Each phase has one lemma about an operand. What it does to records and programs follows, because
the phases keep the code and the registers of a body (`Body.Matches`). The data of the literals
begins with pooling and is sound by itself.
-/

namespace Comet

/-! ## Records that fit the table -/

/-- The names of instructions by what their records do. Operations belong to the remaining names
and, if they do nothing, to reserved storage. -/
def Body.IsNamed (name : String) : Body → Prop
  | operation code r1 r2 adr => name ∉ ["IN", "OUT", "DC", "START", "END"] ∧
      (name = "DS" → code = Opcode.nop ∧ r1 = none ∧ r2 = none ∧ adr = none)
  | transfer _ _ _ => name = "IN" ∨ name = "OUT"
  | data _ => name = "DC"
  | start _ => name = "START"
  | finish => name = "END"
  | labelOnly => name = "DS"

/-- The record fits the row of its instruction, and its length is that of its words, once numbers
have taken the place of its operands. -/
structure Record.IsSound (r : Record) : Prop where
  row : ∃ m, Mnemonic.ofName? r.mnemonic = some m ∧ m.HasForm r.body
  named : r.body.IsNamed r.mnemonic
  sized : ∀ q : Record, r.body.Matches (fun _ operand => operand.IsWord) Eq q.body →
    ∃ ws, q.words = .ok ws ∧ r.byteLength = 2 * ws.length

theorem Body.Matches.byteLength?_eq {R S : Operand → Operand → Prop} {b b' : Body}
    (h : b.Matches R S b') : b'.byteLength? = b.byteLength? := by
  cases h <;> rfl

theorem Body.Matches.wordCount_eq {R S : Operand → Operand → Prop} {b b' : Body}
    (h : b.Matches R S b') : b'.wordCount = b.wordCount := by
  rw [wordCount, wordCount, h.headWords_eq, h.operands.length_eq]

theorem Mnemonic.HasForm.isNamed {m : Mnemonic} (hm : m ∈ table) {b : Body} (h : m.HasForm b) :
    b.IsNamed m.name := by
  obtain ⟨hbuffer, hentry, hwordCount, hconstants, hend⟩ := shape_iff_name hm
  have hoperation {code code' : UInt8} {r1 r2 : Option Register} {adr : Option Operand}
      (opcode : m.code = some code)
      (shape : m.shape ∉ [.buffer, .entry, .wordCount, .constants]) :
      (Body.operation code' r1 r2 adr).IsNamed m.name := by
    rw [Body.IsNamed, ← hwordCount]
    simp only [List.mem_cons, List.not_mem_nil, or_false, not_or, ← or_assoc, ← hbuffer,
      ← hentry, ← hconstants, ← hend, opcode] at shape ⊢
    simp [shape]
  cases h with
  | bare shape opcode | register shape opcode | address shape opcode | registers shape opcode =>
    exact hoperation opcode (by rw [shape]; decide)
  | registerAddress shape opcode =>
    exact hoperation opcode (by rcases shape with shape | shape <;> rw [shape] <;> decide)
  | finish shape opcode => exact hend.1 ⟨shape, opcode⟩
  | transfer shape => exact hbuffer.1 shape
  | start shape => exact hentry.1 shape
  | labelOnly shape => exact hwordCount.1 shape
  | filler shape =>
    rw [hwordCount.1 shape]
    exact ⟨by decide, fun _ => ⟨rfl, rfl, rfl, rfl⟩⟩
  | data shape => exact hconstants.1 shape

theorem Record.isSound_of_hasForm {m : Mnemonic} (hm : m ∈ Mnemonic.table) {r : Record}
    (hname : m.name = r.mnemonic) (h : m.HasForm r.body) : r.IsSound where
  row := ⟨m, hname ▸ Mnemonic.ofName?_name hm, h⟩
  named := hname ▸ h.isNamed hm
  sized := by
    intro q hq
    have hwords : ∀ operand ∈ q.operands, operand.IsWord := by
      intro operand hoperand
      obtain ⟨-, -, hword⟩ := hq.exists_operand hoperand
      exact hword
    obtain ⟨ws, hws⟩ := Record.exists_words_of_isWord hwords
    refine ⟨ws, hws, ?_⟩
    rw [Record.length_of_words hws, wordCount, hq.wordCount_eq, byteLength,
      Body.byteLength?_of_hasForm hm h]
    rfl

/-! ## Operands through the phases -/

/-- The phases of an assembly whose results are programs. -/
inductive Assembly.Phase
  | read
  | pooled
  | laidOut
  | resolved
  deriving DecidableEq, Repr

/-- What has become of an operand of the source after a phase. Numbers of the source fit in a word
and stay, no name is that of a register, literals stand for words that fit, and none of them is
left after pooling. -/
inductive Operand.Becomes (phase : Assembly.Phase) : Operand → Operand → Prop
  | number {value : Int} (fits : Word.fits value = true) :
      Becomes phase (.resolved value) (.resolved value)
  | symbol {name : String} {span : Span} (unreserved : ∀ r : Register, name ≠ r.name) :
      Becomes phase (.symbol name span) (.symbol name span)
  | literal {l : Literal} {span : Span} (early : phase = .read) (wellFormed : l.WellFormed) :
      Becomes phase (.literal l span) (.literal l span)
  | pooled {l : Literal} {span : Span} {name : String} (late : phase ≠ .read)
      (unreserved : ∀ r : Register, name ≠ r.name) :
      Becomes phase (.literal l span) (.symbol name span)
  | address {operand : Operand} {address : Nat} (last : phase = .resolved)
      (unresolved : operand.isResolved = false) : Becomes phase operand (.resolved address)

/-- The entry of a start stays, and it is no name of a register. -/
def Operand.IsEntry (target target' : Operand) : Prop :=
  target' = target ∧ ∃ name span, target = .symbol name span ∧ ∀ r : Register, name ≠ r.name

/-- The names of registers begin with another letter. -/
theorem LiteralPool.literalName_ne_name (n : Nat) (r : Register) : literalName n ≠ r.name := by
  intro h
  have hhead := congrArg (fun name : String => name.toList.head?) h
  rw [literalName, String.toList_append] at hhead
  cases r <;> cases hhead

namespace Operand

variable {source operand : Operand}

theorem becomes_read (h : operand.WellFormed) : Becomes .read operand operand := by
  cases operand with
  | resolved value => exact .number h
  | symbol name span => exact .symbol (Register.isName_eq_false_iff.1 h.unreserved)
  | literal l span => exact .literal rfl h

theorem Becomes.pool (h : Becomes .read source operand) (n : Nat) :
    Becomes .pooled source (operand.pooled n) := by
  cases h with
  | number fits => exact .number fits
  | symbol unreserved => exact .symbol unreserved
  | literal => exact .pooled (by decide) (LiteralPool.literalName_ne_name (n + 1))
  | pooled late => exact absurd rfl late
  | address last => cases last

theorem Becomes.place (h : Becomes .pooled source operand) : Becomes .laidOut source operand := by
  cases h with
  | number fits => exact .number fits
  | symbol unreserved => exact .symbol unreserved
  | literal early => cases early
  | pooled _ unreserved => exact .pooled (by decide) unreserved
  | address last => cases last

theorem Becomes.resolve (h : Becomes .laidOut source operand) (t : LabelTable) (scope : Nat) :
    Becomes .resolved source (operand.resolve .exact t scope) := by
  cases h with
  | number fits => exact .number fits
  | symbol unreserved =>
    rw [Operand.resolve]
    split
    · exact .address rfl rfl
    · exact .symbol unreserved
  | literal early => cases early
  | pooled _ unreserved =>
    rw [Operand.resolve]
    split
    · exact .address rfl rfl
    · exact .pooled (by decide) unreserved
  | address last => cases last

end Operand

/-! ## Bodies through the phases -/

namespace Body

variable {R R' Q S : Operand → Operand → Prop} {b b' b'' : Body}

theorem Matches.mono (h : b.Matches R S b')
    (hR : ∀ operand operand', R operand operand' → R' operand operand') : b.Matches R' S b' := by
  cases h with
  | operation address =>
    cases address with
    | none => exact .operation .none
    | some address => exact .operation (.some (hR _ _ address))
  | transfer address address' => exact .transfer (hR _ _ address) (hR _ _ address')
  | data word => exact .data (hR _ _ word)
  | start entry => exact .start entry
  | finish => exact .finish
  | labelOnly => exact .labelOnly

/-- Replacing operands one after the other. Entries are not replaced. -/
theorem Matches.comp (h : b.Matches R S b') (h' : b'.Matches Q Eq b'')
    (hR : ∀ x y z, R x y → Q y z → R' x z) : b.Matches R' S b'' := by
  cases h with
  | operation address =>
    cases h' with
    | operation address' =>
      cases address with
      | none =>
        cases address'
        exact .operation .none
      | some hadr =>
        cases address' with
        | some hadr' => exact .operation (.some (hR _ _ _ hadr hadr'))
  | transfer hbuffer hlength =>
    cases h' with
    | transfer hbuffer' hlength' =>
      exact .transfer (hR _ _ _ hbuffer hbuffer') (hR _ _ _ hlength hlength')
  | data hword =>
    cases h' with
    | data hword' => exact .data (hR _ _ _ hword hword')
  | start entry =>
    cases h' with
    | start entry' =>
      cases entry with
      | none =>
        cases entry'
        exact .start .none
      | some hentry =>
        cases entry' with
        | some heq => exact .start (.some (heq ▸ hentry))
  | finish =>
    cases h'
    exact .finish
  | labelOnly =>
    cases h'
    exact .labelOnly

/-- Pooling replaces operands only. -/
theorem matches_pooled (b : Body) (n : Nat) :
    b.Matches (fun operand operand' => ∃ k, operand' = operand.pooled k) Eq (b.pooled n) := by
  cases b with
  | operation code r1 r2 adr =>
    cases adr with
    | none => exact .operation .none
    | some adr => exact .operation (.some ⟨n, rfl⟩)
  | transfer code buffer length => exact .transfer ⟨n, rfl⟩ ⟨_, rfl⟩
  | data value => exact .data ⟨n, rfl⟩
  | start target =>
    cases target with
    | none => exact .start .none
    | some target => exact .start (.some rfl)
  | finish => exact .finish
  | labelOnly => exact .labelOnly

end Body

namespace Record

/-- The record `r` stands after a phase where `source` stood in the source. -/
structure Upholds (phase : Assembly.Phase) (source r : Record) : Prop where
  sound : r.IsSound
  mnemonic : r.mnemonic = source.mnemonic
  length : r.byteLength = source.byteLength
  origin : source.body.Matches (Operand.Becomes phase) Operand.IsEntry r.body

namespace WellFormed

variable {source : Record} (h : source.WellFormed)

include h

/-- All else follows from what has become of the body. -/
theorem upholds {phase : Assembly.Phase} {r : Record} (hmnemonic : r.mnemonic = source.mnemonic)
    (horigin : source.body.Matches (Operand.Becomes phase) Operand.IsEntry r.body) :
    Upholds phase source r := by
  obtain ⟨m, hm, hname, hform⟩ := h.form
  refine ⟨isSound_of_hasForm hm (hname.trans hmnemonic.symm) (horigin.hasForm hform), hmnemonic, ?_,
    horigin⟩
  rw [byteLength, byteLength, horigin.byteLength?_eq]

theorem origin_read : source.body.Matches (Operand.Becomes .read) Operand.IsEntry source.body := by
  have hoperands : ∀ operand ∈ source.body.operands, Operand.Becomes .read operand operand :=
    fun operand hoperand => Operand.becomes_read (h.operands operand hoperand)
  cases hbody : source.body with
  | operation code r1 r2 adr =>
    rw [hbody] at hoperands
    cases adr with
    | none => exact .operation .none
    | some adr => exact .operation (.some (hoperands adr (.head _)))
  | transfer code buffer length =>
    rw [hbody] at hoperands
    exact .transfer (hoperands buffer (.head _)) (hoperands length (.tail _ (.head _)))
  | data value =>
    rw [hbody] at hoperands
    exact .data (hoperands value (.head _))
  | start target =>
    cases target with
    | none => exact .start .none
    | some target =>
      obtain ⟨name, span, rfl, hname⟩ := h.entry target hbody
      have hunreserved := Register.isName_eq_false_iff.1 hname.unreserved
      exact .start (.some ⟨rfl, name, span, rfl, hunreserved⟩)
  | finish => exact .finish
  | labelOnly => exact .labelOnly

theorem origin_pooled (n : Nat) :
    source.body.Matches (Operand.Becomes .pooled) Operand.IsEntry (source.body.pooled n) := by
  refine h.origin_read.comp (source.body.matches_pooled n) ?_
  rintro x y _ hxy ⟨k, rfl⟩
  exact hxy.pool k

theorem origin_laidOut (n : Nat) :
    source.body.Matches (Operand.Becomes .laidOut) Operand.IsEntry (source.body.pooled n) :=
  (h.origin_pooled n).mono fun _ _ => Operand.Becomes.place

theorem origin_resolved (n scope : Nat) (t : LabelTable) :
    source.body.Matches (Operand.Becomes .resolved) Operand.IsEntry
      ((source.body.pooled n).mapOperands (Operand.resolve .exact t scope)) := by
  have hresolve : (source.body.pooled n).Matches
      (fun operand operand' => operand' = operand.resolve .exact t scope) Eq
      ((source.body.pooled n).mapOperands (Operand.resolve .exact t scope)) :=
    .mapOperands (fun _ _ => rfl) fun _ => rfl
  refine (h.origin_laidOut n).comp hresolve ?_
  rintro x y _ hxy rfl
  exact hxy.resolve t scope

end WellFormed

/-- The data of a literal of the source. -/
structure HoldsLiteral (rs : List Record) (g : Record) : Prop where
  sound : g.IsSound
  value : ∃ p ∈ rs, ∃ l span, .literal l span ∈ p.operands ∧
    ∃ v ∈ l.words, Word.fits v = true ∧ g.body = .data (.resolved v)

theorem HoldsLiteral.place {rs : List Record} {g : Record} (h : g.HoldsLiteral rs) (offset : Nat) :
    HoldsLiteral rs { g with offset } :=
  ⟨⟨h.sound.row, h.sound.named, h.sound.sized⟩, h.value⟩

end Record

/-! ## Programs through the phases -/

namespace LiteralPool

/-- The pooled data is made of words of the literals. -/
theorem exists_pooledWord {rs : List Record} {g : Record} (hg : g ∈ (ofRecords 0 rs).generated) :
    ∃ o ∈ occurrences rs, ∃ label, ∃ v ∈ o.literal.words, g = .pooledWord label o.line v := by
  rw [generated_eq] at hg
  obtain ⟨⟨o, k⟩, hp, hg⟩ := List.mem_flatMap.1 hg
  refine ⟨o, List.fst_mem_of_mem_zipIdx hp, ?_⟩
  rw [block, Operand.pooledData] at hg
  cases hwords : o.literal.words with
  | nil =>
    rw [hwords] at hg
    cases hg
  | cons word words =>
    rw [hwords] at hg
    rcases List.mem_cons.1 hg with rfl | hg
    · exact ⟨_, word, .head _, rfl⟩
    · obtain ⟨v, hv, rfl⟩ := List.mem_map.1 hg
      exact ⟨none, v, .tail _ hv, rfl⟩

theorem holdsLiteral_generated {rs : List Record} (hrs : ∀ r ∈ rs, r.WellFormed) {g : Record}
    (hg : g ∈ (ofRecords 0 rs).generated) : g.HoldsLiteral rs := by
  obtain ⟨o, ho, label, v, hv, rfl⟩ := exists_pooledWord hg
  have hrow : Mnemonic.directive "DC" .constants ∈ Mnemonic.table := by decide +kernel
  refine ⟨Record.isSound_of_hasForm hrow rfl (.data rfl), ?_⟩
  obtain ⟨k, hk⟩ := List.mem_iff_getElem?.1 ho
  obtain ⟨p, span, hp, -, hoperand, -⟩ := Occurrence.getElem?_occurrences hk
  exact ⟨p, List.mem_of_getElem? hp, o.literal, span, List.mem_of_getElem? hoperand, v, hv,
    (Occurrence.wellFormed_literal hrs ho).fits v hv, rfl⟩

end LiteralPool

namespace Assembly

/-- A program with the data of its literals. -/
structure Stage where
  records : List Record
  generated : List Record

/-- The program of a source text after a phase. -/
def stage (scoping : Bool) (rs : List Record) : Phase → Stage
  | .read => ⟨rs, []⟩
  | .pooled => ⟨(LiteralPool.ofRecords 0 rs).records, (LiteralPool.ofRecords 0 rs).generated⟩
  | .laidOut => ⟨(layout scoping rs).records, (layout scoping rs).generated⟩
  | .resolved => ⟨(layout scoping rs).records.map (Record.resolve .exact (labels scoping rs)),
      (layout scoping rs).generated⟩

variable {scoping : Bool} {rs : List Record}

/-- Every record stands in the place of a record of the source. -/
theorem forall₂_upholds (scoping : Bool) (hrs : ∀ r ∈ rs, r.WellFormed) (phase : Phase) :
    List.Forall₂ (Record.Upholds phase) rs (stage scoping rs phase).records := by
  cases phase with
  | read =>
    refine List.forall₂_same.2 fun r hr => ?_
    exact (hrs r hr).upholds rfl (hrs r hr).origin_read
  | pooled =>
    refine Traversal.forall₂_of_getElem? (LiteralPool.getElem?_records 0 rs) fun i r hr => ?_
    have hwf := hrs r (List.mem_of_getElem? hr)
    exact hwf.upholds rfl (hwf.origin_pooled _)
  | laidOut =>
    refine Traversal.forall₂_of_getElem? (getElem?_layout scoping rs) fun i r hr => ?_
    have hwf := hrs r (List.mem_of_getElem? hr)
    exact hwf.upholds rfl (hwf.origin_laidOut _)
  | resolved =>
    have hplaces : ∀ i, (stage scoping rs .resolved).records[i]? = rs[i]?.map fun r =>
        (placed scoping rs i r).resolve .exact (labels scoping rs) := by
      intro i
      rw [stage, List.getElem?_map, getElem?_layout, Option.map_map]
      rfl
    refine Traversal.forall₂_of_getElem? hplaces fun i r hr => ?_
    have hwf := hrs r (List.mem_of_getElem? hr)
    exact hwf.upholds rfl (hwf.origin_resolved _ _ _)

/-- The data of the literals is sound from pooling on. -/
theorem holdsLiteral_stage (hrs : ∀ r ∈ rs, r.WellFormed) {phase : Phase} {g : Record}
    (hg : g ∈ (stage scoping rs phase).generated) : g.HoldsLiteral rs := by
  have hplaced (hg : g ∈ (layout scoping rs).generated) : g.HoldsLiteral rs := by
    obtain ⟨i, hi⟩ := List.mem_iff_getElem?.1 hg
    rw [getElem?_generated_layout, Option.map_eq_some_iff] at hi
    obtain ⟨word, hword, rfl⟩ := hi
    exact (LiteralPool.holdsLiteral_generated hrs (List.mem_of_getElem? hword)).place _
  cases phase with
  | read => cases hg
  | pooled => exact LiteralPool.holdsLiteral_generated hrs hg
  | laidOut => exact hplaced hg
  | resolved => exact hplaced hg

/-- After reading and after every later phase, each record of a program fits the row of its
instruction and is as long as its words will be. Its operands are those of the source, as far as
the phases so far have not replaced them, and the data of the literals is sound as well. -/
theorem upholds_phases (options : Options) (lines : List String) :
    ∃ reading a, readLines options.gr8 lines = .ok reading ∧ analyze options lines = .ok a ∧
      stage options.scoping reading.records .resolved = ⟨a.records, a.generated⟩ ∧
      ∀ phase, List.Forall₂ (Record.Upholds phase) reading.records
          (stage options.scoping reading.records phase).records ∧
        ∀ g ∈ (stage options.scoping reading.records phase).generated,
          g.HoldsLiteral reading.records := by
  obtain ⟨reading, hread, hrs⟩ := exists_readLines options.gr8 lines
  refine ⟨reading, analyzeRecords options.scoping reading, hread, ?_, rfl, fun phase => ?_⟩
  · rw [analyze, hread]
    rfl
  · exact ⟨forall₂_upholds options.scoping hrs phase, fun g => holdsLiteral_stage hrs⟩

end Assembly

end Comet
