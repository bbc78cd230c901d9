import Comet.Proofs.Placement
import Comet.Proofs.Traversal
import Mathlib.Data.List.Nodup

/-!
# The data of literals

The literals of a program are numbered in the order in which they stand. `occurrences`
lists them with their places, so that the number of a literal is its place in that
list, and the pooled data is one block after another in the same order. The name of a
block is no name of a source text, and no two blocks have the same name.
-/

namespace Comet

namespace LiteralPool

/-- Literals have different names. -/
theorem literalName_injective {m n : Nat} (h : literalName m = literalName n) : m = n := by
  have hlist := congrArg String.toList h
  simp only [literalName, String.toList_append, List.append_cancel_left_eq,
    Nat.toString_eq_repr, Nat.toList_repr] at hlist
  simpa using congrArg (fun digits => Nat.ofDigitChars 10 digits 0) hlist

/-- The name of a literal begins with a small letter. -/
theorem not_isLabelName_literalName (n : Nat) : ¬ IsLabelName (literalName n) := by
  intro h
  have hname := h.spelled
  rw [literalName, String.toList_append] at hname
  have hupper : ('l' : Char).isUpper = true := hname.1
  revert hupper
  decide

end LiteralPool

/-- The literal that an operand is. -/
def Operand.literal? : Operand → Option Literal
  | literal l _ => some l
  | _ => none

/-- A literal in a program: the place of its record and its position among the operands
of that record. -/
structure Occurrence where
  place : Nat
  position : Nat
  line : Nat
  literal : Literal
  deriving DecidableEq, Repr

namespace Occurrence

/-- The occurrence that an operand is. -/
def ofOperand? (place line : Nat) (p : Operand × Nat) : Option Occurrence :=
  p.1.literal?.map fun l => ⟨place, p.2, line, l⟩

/-- The literals of the record at a place. -/
def ofRecord (r : Record) (place : Nat) : List Occurrence :=
  r.operands.zipIdx.flatMap fun p => (ofOperand? place r.line p).toList

/-- The literals of records, the first of which is at the given place. -/
def ofRecordsFrom (place : Nat) (rs : List Record) : List Occurrence :=
  (rs.zipIdx place).flatMap fun p => ofRecord p.1 p.2

end Occurrence

/-- The literals of a program in the order in which they stand. -/
def occurrences (rs : List Record) : List Occurrence := Occurrence.ofRecordsFrom 0 rs

namespace Occurrence

theorem length_ofOperand? (place line : Nat) (p : Operand × Nat) :
    (ofOperand? place line p).toList.length = p.1.literalCount := by
  obtain ⟨operand, j⟩ := p
  cases operand <;> rfl

theorem length_ofRecord (r : Record) (place : Nat) :
    (ofRecord r place).length = r.literalCount := by
  rw [ofRecord, List.length_flatMap, Record.literalCount, Tally.total_eq_sum]
  have hsum := Traversal.map_zipIdx_take (length_ofOperand? place r.line) r.operands 0
    r.operands.length
  simpa [List.take_of_length_le] using congrArg List.sum hsum

/-- The number of an occurrence counts the literals before it, first those of the
records before its own and then those of the operands before it. -/
theorem getElem?_occurrences {rs : List Record} {k : Nat} {o : Occurrence}
    (h : (occurrences rs)[k]? = some o) :
    ∃ r span, rs[o.place]? = some r ∧ o.line = r.line ∧
      r.operands[o.position]? = some (.literal o.literal span) ∧
      k = ((rs.take o.place).map Record.literalCount).sum +
        ((r.operands.take o.position).map Operand.literalCount).sum := by
  obtain ⟨i, ⟨r, i'⟩, j, hi, hj, rfl⟩ := Traversal.exists_of_getElem?_flatMap h
  obtain ⟨j', ⟨operand, j''⟩, m, hj', ho, rfl⟩ := Traversal.exists_of_getElem?_flatMap hj
  rw [List.getElem?_zipIdx, Option.map_eq_some_iff] at hi hj'
  obtain ⟨r, hr, hp⟩ := hi
  cases hp
  obtain ⟨operand, hoperand, hp⟩ := hj'
  cases hp
  cases operand with
  | resolved value => simp [ofOperand?, Operand.literal?] at ho
  | symbol name span => simp [ofOperand?, Operand.literal?] at ho
  | literal l span =>
    have hm : m = 0 ∧ o = ⟨i, j', r.line, l⟩ := by
      cases m with
      | zero => simpa [ofOperand?, Operand.literal?, eq_comm] using ho
      | succ m => simp [ofOperand?, Operand.literal?] at ho
    obtain ⟨rfl, rfl⟩ := hm
    refine ⟨r, span, hr, rfl, hoperand, ?_⟩
    rw [Traversal.map_zipIdx_take fun p => length_ofRecord p.1 p.2,
      Traversal.map_zipIdx_take fun p => length_ofOperand? _ _ p, Nat.add_zero]

theorem mem_occurrences {rs : List Record} {i j : Nat} {r : Record} {l : Literal} {span : Span}
    (hr : rs[i]? = some r) (hoperand : r.operands[j]? = some (.literal l span)) :
    ⟨i, j, r.line, l⟩ ∈ occurrences rs := by
  refine List.mem_flatMap.2 ⟨(r, i), List.mem_zipIdx_iff_getElem?.2 hr, ?_⟩
  refine List.mem_flatMap.2 ⟨(.literal l span, j), List.mem_zipIdx_iff_getElem?.2 hoperand, ?_⟩
  exact List.mem_singleton.2 rfl

/-- The order in which literals stand in a program. -/
def Before (o o' : Occurrence) : Prop :=
  o.place < o'.place ∨ o.place = o'.place ∧ o.position < o'.position

theorem pairwise_zipIdx {α : Type} (xs : List α) (start : Nat) :
    (xs.zipIdx start).Pairwise fun p q => p.2 < q.2 := by
  refine List.pairwise_map.1 ?_
  rw [List.zipIdx_map_snd]
  exact List.pairwise_lt_range'

theorem pairwise_before (rs : List Record) : (occurrences rs).Pairwise Before := by
  have hmem {place line : Nat} {p : Operand × Nat} {o : Occurrence}
      (ho : o ∈ (ofOperand? place line p).toList) : o.place = place ∧ o.position = p.2 := by
    obtain ⟨l, -, rfl⟩ := Option.map_eq_some_iff.1 (Option.mem_toList.1 ho)
    exact ⟨rfl, rfl⟩
  -- An operand is one literal at most, positions order the operands of a record, and
  -- places order the records.
  refine List.pairwise_flatMap.2 ⟨fun p _ => List.pairwise_flatMap.2 ⟨fun q _ => ?_, ?_⟩, ?_⟩
  · cases ofOperand? p.2 p.1.line q <;> simp
  · refine (pairwise_zipIdx _ _).imp fun hlt o ho o' ho' => .inr ?_
    rw [(hmem ho).1, (hmem ho).2, (hmem ho').1, (hmem ho').2]
    exact ⟨rfl, hlt⟩
  · refine (pairwise_zipIdx _ _).imp fun hlt o ho o' ho' => .inl ?_
    obtain ⟨q, -, ho⟩ := List.mem_flatMap.1 ho
    obtain ⟨q', -, ho'⟩ := List.mem_flatMap.1 ho'
    rw [(hmem ho).1, (hmem ho').1]
    exact hlt

end Occurrence

namespace LiteralPool

/-- The data of a literal, if `n` literals come before it. -/
def block (p : Occurrence × Nat) : List Record :=
  (Operand.literal p.1.literal .none).pooledData p.1.line p.2

theorem length_block (p : Occurrence × Nat) : (block p).length = p.1.literal.words.length := by
  rw [block, Operand.pooledData]
  cases p.1.literal.words <;> simp

/-- The bodies of the records that hold the given values. -/
def dataBodies (values : List Int) : List Body := values.map fun value => .data (.resolved value)

theorem map_body_block (p : Occurrence × Nat) :
    (block p).map (·.body) = dataBodies p.1.literal.words := by
  rw [block, Operand.pooledData]
  cases p.1.literal.words with
  | nil => rfl
  | cons word words => simp [dataBodies, Record.pooledWord, Function.comp_def]

/-- The first record of a block has the name of the literal, and no other has a label. -/
theorem block_labels {p : Occurrence × Nat} (h : p.1.literal.words ≠ []) :
    (block p).map (·.label) = some (literalName (p.2 + 1)) ::
      List.replicate (p.1.literal.words.length - 1) none := by
  rw [block, Operand.pooledData]
  cases hwords : p.1.literal.words with
  | nil => exact absurd hwords h
  | cons word words => simp [Record.pooledWord, Function.comp_def]

theorem pooledData_operands (line place n j : Nat) (operands : List Operand) :
    (Tally.running Operand.literalCount n operands).flatMap
        (fun p => p.2.pooledData line p.1) =
      (((operands.zipIdx j).flatMap fun p =>
        (Occurrence.ofOperand? place line p).toList).zipIdx n).flatMap block := by
  induction operands generalizing n j with
  | nil => rfl
  | cons operand operands ih =>
    rw [Tally.running_cons, List.flatMap_cons, ih (n + operand.literalCount) (j + 1),
      List.zipIdx_cons, List.flatMap_cons, List.zipIdx_append, List.flatMap_append,
      Occurrence.length_ofOperand?]
    congr 1
    cases operand with
    | resolved value => rfl
    | symbol name span => rfl
    | literal l span => exact (List.append_nil _).symm

theorem pooledData_eq (r : Record) (place n : Nat) :
    r.pooledData n = ((Occurrence.ofRecord r place).zipIdx n).flatMap block :=
  pooledData_operands r.line place n 0 r.operands

theorem generated_eq_from (n place : Nat) (rs : List Record) :
    (ofRecords n rs).generated =
      ((Occurrence.ofRecordsFrom place rs).zipIdx n).flatMap block := by
  induction rs generalizing n place with
  | nil => rfl
  | cons r rs ih =>
    have hcons : (ofRecords n (r :: rs)).generated =
        r.pooledData n ++ (ofRecords (n + r.literalCount) rs).generated := by
      simp [ofRecords]
    rw [hcons, ih (n + r.literalCount) (place + 1), pooledData_eq r place n,
      Occurrence.ofRecordsFrom, Occurrence.ofRecordsFrom, List.zipIdx_cons, List.flatMap_cons,
      List.zipIdx_append, List.flatMap_append, Occurrence.length_ofRecord]

/-- The pooled data is one block for each literal of the program. -/
theorem generated_eq (rs : List Record) :
    (ofRecords 0 rs).generated = (occurrences rs).zipIdx.flatMap block :=
  generated_eq_from 0 0 rs

/-- The values that the pooled data holds. -/
def values (rs : List Record) : List Int := (occurrences rs).flatMap (·.literal.words)

theorem map_body_generated (rs : List Record) :
    (ofRecords 0 rs).generated.map (·.body) = dataBodies (values rs) := by
  rw [generated_eq, List.map_flatMap, values, dataBodies, List.map_flatMap]
  conv_rhs => rw [← List.zipIdx_map_fst 0 (occurrences rs), List.flatMap_map]
  exact List.flatMap_congr fun p _ => map_body_block p

theorem map_byteLength_generated (rs : List Record) :
    (ofRecords 0 rs).generated.map Record.byteLength = List.replicate (values rs).length 2 := by
  have hbodies := congrArg (List.map fun b : Body => b.byteLength?.getD 0) (map_body_generated rs)
  rw [List.map_map, dataBodies, List.map_map] at hbodies
  exact hbodies.trans (List.map_const' ..)

/-- The number of words that the literals before one take. -/
def wordsBefore (rs : List Record) (k : Nat) : Nat :=
  (((occurrences rs).take k).map (·.literal.words.length)).sum

theorem wordsBefore_succ {rs : List Record} {k : Nat} {o : Occurrence}
    (h : (occurrences rs)[k]? = some o) :
    wordsBefore rs (k + 1) = wordsBefore rs k + o.literal.words.length := by
  simp [wordsBefore, List.take_add_one, h]

theorem wordsBefore_mono (rs : List Record) {k k' : Nat} (h : k ≤ k') :
    wordsBefore rs k ≤ wordsBefore rs k' := by
  obtain ⟨d, rfl⟩ := Nat.exists_eq_add_of_le h
  rw [wordsBefore, wordsBefore, List.take_add, List.map_append, List.sum_append]
  exact Nat.le_add_right _ _

theorem wordsBefore_length (rs : List Record) :
    wordsBefore rs (occurrences rs).length = (values rs).length := by
  rw [wordsBefore, List.take_length, values, List.length_flatMap]

/-- Every literal of the program stands for storage. -/
def Nonempty (rs : List Record) : Prop := ∀ o ∈ occurrences rs, o.literal.words ≠ []

/-- The first word of a literal is labelled with its name and stands behind the words of
the literals before it. -/
theorem exists_named {rs : List Record} {k : Nat} {o : Occurrence}
    (h : (occurrences rs)[k]? = some o) (hne : o.literal.words ≠ []) :
    ∃ g, (ofRecords 0 rs).generated[wordsBefore rs k]? = some g ∧
      g.label = some (literalName (k + 1)) := by
  have hk : (occurrences rs).zipIdx[k]? = some (o, k) := by
    rw [List.getElem?_zipIdx, h]
    simp
  have hpos : 0 < (block (o, k)).length := by
    rw [length_block]
    exact List.length_pos_iff.2 hne
  have hfirst := Traversal.getElem?_of_slice (Traversal.slice_flatMap hk) hpos
  rw [Traversal.map_zipIdx_take (f := fun o => o.literal.words.length) length_block,
    ← generated_eq, Nat.add_zero] at hfirst
  have hlabel : (block (o, k))[0]?.map (·.label) = some (some (literalName (k + 1))) := by
    rw [← List.getElem?_map, block_labels hne]
    rfl
  obtain ⟨g, hg, hname⟩ := Option.map_eq_some_iff.1 hlabel
  exact ⟨g, hfirst.trans hg, hname⟩

/-- The names of the first literals. -/
def literalNames (count : Nat) : List String :=
  (List.range count).map fun k => literalName (k + 1)

theorem nodup_literalNames (count : Nat) : (literalNames count).Nodup := by
  refine List.Nodup.map (fun m n hmn => ?_) List.nodup_range
  exact Nat.succ.inj (literalName_injective hmn)

theorem not_isLabelName_of_mem {count : Nat} {name : String} (h : name ∈ literalNames count) :
    ¬ IsLabelName name := by
  obtain ⟨k, -, rfl⟩ := List.mem_map.1 h
  exact not_isLabelName_literalName (k + 1)

/-- The labels of the pooled data are the names of the literals. -/
theorem filterMap_label_generated {rs : List Record} (h : Nonempty rs) :
    (ofRecords 0 rs).generated.filterMap (·.label) = literalNames (occurrences rs).length := by
  have hblock : ∀ p ∈ (occurrences rs).zipIdx,
      (block p).filterMap (·.label) = [literalName (p.2 + 1)] := by
    intro p hp
    have hne : p.1.literal.words ≠ [] := h p.1 (List.fst_mem_of_mem_zipIdx hp)
    have hlabels := congrArg (List.filterMap id) (block_labels hne)
    simpa [List.filterMap_map, Function.comp_def] using hlabels
  rw [generated_eq, List.filterMap_flatMap, List.flatMap_congr hblock, ← List.map_eq_flatMap,
    literalNames, List.range_eq_range', ← List.zipIdx_map_snd 0 (occurrences rs), List.map_map]
  rfl

end LiteralPool

end Comet
