import Comet.Proofs.ErrorFree
import Comet.Proofs.Registration

/-!
# The range of addresses

A label table that was made from records has no other addresses than theirs, and the
address of a record counts the words before it. So twice an address is never more than
the length of the program in bytes (`two_mul_address_le`).

An address could be read in two's complement as well. This makes a difference only for
addresses in the upper half of 64 bits, and no program is long enough to have one
(`resolution_signed`).
-/

namespace Comet

/-! ## The addresses of a table -/

namespace LabelTable

/-- Every address of the table is that of one of the records. -/
def HasAddressesOf (t : LabelTable) (rs : List Record) : Prop :=
  ∀ key e, t.get? key = some e → ∃ r ∈ rs, r.address = e.address

namespace HasAddressesOf

variable {t t' : LabelTable} {rs : List Record}

/-- Recording uses adds no addresses. -/
theorem congr (h : t.HasAddressesOf rs) (hsame : t.SameDeclarations t') :
    t'.HasAddressesOf rs := by
  intro key e he
  have haddress : t.addressOf? key = some e.address := by
    rw [← hsame.addressOf?_eq, addressOf?, he]
    rfl
  obtain ⟨e', he', heq⟩ := Option.map_eq_some_iff.1 haddress
  obtain ⟨r, hr, hrecord⟩ := h key e' he'
  exact ⟨r, hr, hrecord.trans heq⟩

theorem declareGenerated (h : t.HasAddressesOf rs) {g : Record} (hg : g ∈ rs) :
    (t.declareGenerated g).HasAddressesOf rs := by
  intro key e he
  rw [get?_declareGenerated] at he
  split at he
  · cases he
    exact ⟨g, hg, rfl⟩
  · exact h key e he

theorem foldl_declareGenerated {generated : List Record} (h : t.HasAddressesOf rs)
    (hgenerated : ∀ g ∈ generated, g ∈ rs) :
    (generated.foldl LabelTable.declareGenerated t).HasAddressesOf rs := by
  induction generated generalizing t with
  | nil => exact h
  | cons g generated ih =>
    exact ih (h.declareGenerated (hgenerated g (.head _))) fun g' hg' =>
      hgenerated g' (.tail _ hg')

/-- What a name stands for is the address of a record. -/
theorem exists_record (h : t.HasAddressesOf rs) {name : String} {scope address : Nat}
    (haddress : t.address? name scope = some address) : ∃ r ∈ rs, r.address = address := by
  obtain ⟨e, he, rfl⟩ := Option.map_eq_some_iff.1 haddress
  obtain ⟨key, -, hkey⟩ := Option.bind_eq_some_iff.1 he
  exact h key e hkey

end HasAddressesOf

theorem hasAddressesOf_ofRecords (records generated : List Record) :
    (ofRecords records generated).1.HasAddressesOf (records ++ generated) := by
  have hdeclared : (records.foldl declare (empty, [])).1.HasAddressesOf
      (records ++ generated) := by
    intro key e he
    obtain ⟨r, hr, -, rfl⟩ := ((registers_foldl_declare records).represents.entry key e).1 he
    obtain ⟨i, hi, -⟩ := mem_select.1 hr
    exact ⟨r, List.mem_append_left _ (List.mem_of_getElem? hi), rfl⟩
  have hpooled : (declarations records generated).HasAddressesOf (records ++ generated) :=
    hdeclared.foldl_declareGenerated fun g hg => List.mem_append_right _ hg
  exact hpooled.congr (sameDeclarations_ofRecords records generated)

end LabelTable

theorem Layout.IsPlaced.offset_le {start : Nat} {rs : List Record} (h : IsPlaced start rs)
    {r : Record} (hr : r ∈ rs) : r.offset ≤ start + byteLength rs := by
  obtain ⟨i, hi⟩ := List.mem_iff_getElem?.1 hr
  rw [h.offset_eq hi, byteLength, Tally.total_eq_sum]
  conv_rhs => rw [← List.take_append_drop i rs, List.map_append, List.sum_append]
  omega

namespace Assembly

variable {scoping : Bool} {rs : List Record}

/-- The length in bytes of a program with the data of its literals. -/
def programLength (scoping : Bool) (rs : List Record) : Nat :=
  Layout.byteLength ((layout scoping rs).records ++ (layout scoping rs).generated)

/-- Addresses count words, and a word has two bytes. -/
theorem two_mul_address_le {name : String} {scope address : Nat}
    (h : (labels scoping rs).address? name scope = some address) :
    2 * address ≤ programLength scoping rs := by
  have htable : (labels scoping rs).HasAddressesOf
      ((layout scoping rs).records ++ (layout scoping rs).generated) :=
    (LabelTable.hasAddressesOf_ofRecords _ _).congr
      (LabelTable.sameDeclarations_referByRecords _ _)
  obtain ⟨r, hr, rfl⟩ := htable.exists_record h
  have hoffset : r.offset ≤ 0 + programLength scoping rs :=
    (Layout.isPlaced_ofRecords scoping _ _).offset_le hr
  rw [Record.address]
  omega

end Assembly

/-! ## Readings of addresses -/

section Readings

variable {reading reading' : AddressReading} {t : LabelTable}

/-- The readings agree on the addresses of the table. -/
def AddressReading.AgreesOn (reading reading' : AddressReading) (t : LabelTable) : Prop :=
  ∀ name scope address, t.address? name scope = some address →
    reading address = reading' address

theorem Operand.resolve_congr (h : reading.AgreesOn reading' t) (scope : Nat)
    (operand : Operand) : operand.resolve reading t scope = operand.resolve reading' t scope := by
  cases operand with
  | symbol name span =>
    rw [resolve, resolve]
    cases haddress : t.address? name scope with
    | none => rfl
    | some address => exact congrArg resolved (h name scope address haddress)
  | resolved | literal => rfl

theorem Operand.resolveProblem?_congr (h : reading.AgreesOn reading' t) (line scope : Nat)
    (operand : Operand) :
    operand.resolveProblem? reading t line scope =
      operand.resolveProblem? reading' t line scope := by
  cases operand with
  | symbol name span =>
    rw [resolveProblem?, resolveProblem?]
    cases haddress : t.address? name scope with
    | none => rfl
    | some address => simp only [h name scope address haddress]
  | resolved | literal => rfl

/-- Readings that agree on the addresses of a table resolve its names alike. -/
theorem Resolution.ofRecords_congr {records : List Record}
    (h : reading.AgreesOn reading' (t.referByRecords records)) :
    ofRecords reading t records = ofRecords reading' t records := by
  have hrecord : Record.resolve reading (t.referByRecords records) =
      Record.resolve reading' (t.referByRecords records) := by
    funext r
    rw [Record.resolve, Record.resolve, funext (Operand.resolve_congr h r.scope)]
  have hproblems : Record.resolveProblems reading (t.referByRecords records) =
      Record.resolveProblems reading' (t.referByRecords records) := by
    funext r
    rw [Record.resolveProblems, Record.resolveProblems,
      funext (Operand.resolveProblem?_congr h r.line r.scope)]
  rw [ofRecords, ofRecords, hrecord, hproblems]

end Readings

/-- A program whose length is a number of 64 bits is resolved alike with both readings. -/
theorem Assembly.resolution_signed {scoping : Bool} {rs : List Record}
    (h : programLength scoping rs < UInt64.size) :
    Resolution.ofRecords .signed (declaredLabels scoping rs).1 (layout scoping rs).records =
      Resolution.ofRecords .exact (declaredLabels scoping rs).1 (layout scoping rs).records := by
  refine Resolution.ofRecords_congr fun name scope address haddress => ?_
  exact AddressReading.signed_of_lt (Nat.lt_of_le_of_lt (two_mul_address_le haddress) h)

end Comet
