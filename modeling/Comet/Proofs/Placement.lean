import Comet.Proofs.RecordForm
import Comet.Assembly
import Mathlib.Algebra.BigOperators.Group.List.Basic
import Mathlib.Algebra.GroupWithZero.Nat

/-!
# Where records are placed

Pooling, layout and resolution change the operands, the scope and the offset of a
record, but neither its place in the program nor its length. So the record at some
place of the assembled program comes from the record at the same place of the
source, and its offset is the length of what stands before it. `IsPlaced` says the
latter of a list, and `getElem?_records` gives the former.
-/

namespace Comet

namespace Tally

variable {α : Type}

theorem total_eq_sum (f : α → Nat) (xs : List α) : total f xs = (xs.map f).sum := by
  induction xs with
  | nil => rfl
  | cons x xs ih => simp [ih]

theorem running_map {β : Type} (g : β → Nat) (f : α → β) (start : Nat) (xs : List α) :
    running g start (xs.map f) = (running (g ∘ f) start xs).map (Prod.map id f) := by
  induction xs generalizing start with
  | nil => rfl
  | cons x xs ih => simp [ih]

theorem getElem?_running (f : α → Nat) (start : Nat) (xs : List α) (i : Nat) :
    (running f start xs)[i]? = xs[i]?.map fun x => (start + ((xs.take i).map f).sum, x) := by
  induction xs generalizing start i with
  | nil => simp
  | cons x xs ih =>
    cases i with
    | zero => simp
    | succ i => simp [ih, Nat.add_assoc]

end Tally

namespace Body

/-- Pooling names the literals of the operands in their order. -/
theorem operands_pooled (n : Nat) (b : Body) :
    (b.pooled n).operands =
      (Tally.running Operand.literalCount n b.operands).map fun p => p.2.pooled p.1 := by
  cases b with
  | operation code r1 r2 adr => cases adr <;> simp [pooled, operands]
  | transfer code buffer length => simp [pooled, operands]
  | data value => simp [pooled, operands]
  | start target => rfl
  | finish => rfl
  | labelOnly => rfl

@[simp] theorem byteLength?_pooled (n : Nat) (b : Body) :
    (b.pooled n).byteLength? = b.byteLength? := by
  cases b <;> rfl

@[simp] theorem headWords_pooled (n : Nat) (b : Body) :
    (b.pooled n).headWords = b.headWords := by
  cases b <;> rfl

@[simp] theorem headWords_mapOperands (f : Operand → Operand) (b : Body) :
    (b.mapOperands f).headWords = b.headWords := by
  cases b <;> rfl

@[simp] theorem wordCount_pooled (n : Nat) (b : Body) : (b.pooled n).wordCount = b.wordCount := by
  simp [wordCount, operands_pooled]

@[simp] theorem wordCount_mapOperands (f : Operand → Operand) (b : Body) :
    (b.mapOperands f).wordCount = b.wordCount := by
  simp [wordCount]

@[simp] theorem pooled_eq_finish (n : Nat) (b : Body) : b.pooled n = .finish ↔ b = .finish := by
  cases b <;> simp [pooled]

@[simp] theorem pooled_eq_start (n : Nat) (b : Body) (target : Option Operand) :
    b.pooled n = .start target ↔ b = .start target := by
  cases b <;> simp [pooled]

@[simp] theorem mapOperands_eq_start (f : Operand → Operand) (b : Body) (target : Option Operand) :
    b.mapOperands f = .start target ↔ b = .start target := by
  cases b <;> simp [mapOperands]

end Body

namespace Record

@[simp] theorem byteLength_pooled (n : Nat) (r : Record) :
    (r.pooled n).byteLength = r.byteLength := by
  simp [byteLength, pooled]

@[simp] theorem closedScopes_pooled (scoping : Bool) (n : Nat) (r : Record) :
    (r.pooled n).closedScopes scoping = r.closedScopes scoping := by
  simp [closedScopes, pooled]

@[simp] theorem wordCount_pooled (n : Nat) (r : Record) : (r.pooled n).wordCount = r.wordCount := by
  simp [wordCount, pooled]

@[simp] theorem wordCount_resolve (reading : AddressReading) (t : LabelTable) (r : Record) :
    (r.resolve reading t).wordCount = r.wordCount := by
  simp [wordCount, resolve, mapOperands]

@[simp] theorem byteLength_resolve (reading : AddressReading) (t : LabelTable) (r : Record) :
    (r.resolve reading t).byteLength = r.byteLength := by
  simp [resolve]

end Record

namespace Layout

/-- The records follow one another without gaps, from the given offset on. -/
def IsPlaced (start : Nat) : List Record → Prop
  | [] => True
  | r :: rs => r.offset = start ∧ IsPlaced (start + r.byteLength) rs

theorem isPlaced_place (start : Nat) (rs : List Record) : IsPlaced start (place start rs) := by
  induction rs generalizing start with
  | nil => trivial
  | cons r rs ih =>
    rw [place, Tally.running_cons, List.map_cons]
    exact ⟨rfl, ih (start + r.byteLength)⟩

theorem isPlaced_append {start : Nat} {rs rs' : List Record} :
    IsPlaced start (rs ++ rs') ↔
      IsPlaced start rs ∧ IsPlaced (start + (rs.map Record.byteLength).sum) rs' := by
  induction rs generalizing start with
  | nil => simp [IsPlaced]
  | cons r rs ih =>
    rw [List.cons_append, IsPlaced, IsPlaced, ih, List.map_cons, List.sum_cons, Nat.add_assoc,
      and_assoc]

/-- A change that keeps offsets and lengths keeps the placement. -/
theorem IsPlaced.map {start : Nat} {rs : List Record} {f : Record → Record}
    (h : IsPlaced start rs) (hoffset : ∀ r, (f r).offset = r.offset)
    (hlength : ∀ r, (f r).byteLength = r.byteLength) : IsPlaced start (rs.map f) := by
  induction rs generalizing start with
  | nil => trivial
  | cons r rs ih =>
    refine ⟨(hoffset r).trans h.1, ?_⟩
    rw [hlength]
    exact ih h.2

/-- The offset of a record is the length of the records before it. -/
theorem IsPlaced.offset_eq {start : Nat} {rs : List Record} (h : IsPlaced start rs) {i : Nat}
    {r : Record} (hr : rs[i]? = some r) :
    r.offset = start + ((rs.take i).map Record.byteLength).sum := by
  induction rs generalizing start i with
  | nil => simp at hr
  | cons b rs ih =>
    cases i with
    | zero =>
      cases hr
      exact h.1
    | succ i =>
      rw [ih h.2 hr, List.take_succ_cons, List.map_cons, List.sum_cons, Nat.add_assoc]

/-- What does not depend on offsets is kept by placing. -/
theorem map_place {α : Type} {f : Record → α} (hf : ∀ r offset, f { r with offset } = f r)
    (start : Nat) (rs : List Record) : (place start rs).map f = rs.map f := by
  conv_rhs => rw [← Tally.map_snd_running Record.byteLength start rs]
  rw [place, List.map_map, List.map_map]
  exact List.map_congr_left fun p _ => hf p.2 p.1

/-- What does not depend on scopes is kept by assigning them. -/
theorem map_assignScopes {α : Type} {f : Record → α} (hf : ∀ r scope, f { r with scope } = f r)
    (scoping : Bool) (rs : List Record) : (assignScopes scoping rs).map f = rs.map f := by
  conv_rhs => rw [← Tally.map_snd_running (Record.closedScopes scoping) 1 rs]
  rw [assignScopes, List.map_map, List.map_map]
  exact List.map_congr_left fun p _ => hf p.2 p.1

/-- A program and the data of its literals are laid out as one list. -/
theorem isPlaced_ofRecords (scoping : Bool) (rs generated : List Record) :
    IsPlaced 0 ((ofRecords scoping rs generated).records ++
      (ofRecords scoping rs generated).generated) := by
  refine isPlaced_append.2 ⟨isPlaced_place 0 _, ?_⟩
  rw [ofRecords, map_place fun _ _ => rfl, map_assignScopes fun _ _ => rfl, Nat.zero_add,
    ← Tally.total_eq_sum]
  exact isPlaced_place _ _

theorem getElem?_place (start : Nat) (rs : List Record) (i : Nat) :
    (place start rs)[i]? = rs[i]?.map fun r =>
      { r with offset := start + ((rs.take i).map Record.byteLength).sum } := by
  rw [place, List.getElem?_map, Tally.getElem?_running]
  cases rs[i]? <;> rfl

theorem getElem?_assignScopes (scoping : Bool) (rs : List Record) (i : Nat) :
    (assignScopes scoping rs)[i]? = rs[i]?.map fun r =>
      { r with scope := 1 + ((rs.take i).map (Record.closedScopes scoping)).sum } := by
  rw [assignScopes, List.getElem?_map, Tally.getElem?_running]
  cases rs[i]? <;> rfl

end Layout

namespace LiteralPool

theorem getElem?_records (n : Nat) (rs : List Record) (i : Nat) :
    (ofRecords n rs).records[i]? = rs[i]?.map fun r =>
      r.pooled (n + ((rs.take i).map Record.literalCount).sum) := by
  rw [ofRecords, List.getElem?_map, Tally.getElem?_running]
  cases rs[i]? <;> rfl

/-- What pooling keeps of every record it keeps of the program. -/
theorem map_records {α : Type} {f : Record → α} (hf : ∀ n r, f (Record.pooled r n) = f r) (n : Nat)
    (rs : List Record) : (ofRecords n rs).records.map f = rs.map f := by
  conv_rhs => rw [← Tally.map_snd_running Record.literalCount n rs]
  rw [ofRecords, List.map_map, List.map_map]
  exact List.map_congr_left fun p _ => hf p.1 p.2

end LiteralPool

namespace Assembly

/-- The scope of the record at a place of a source text: with scoping, every end of
a subroutine before it has closed one. -/
def scopeAt (scoping : Bool) (rs : List Record) (i : Nat) : Nat :=
  if scoping then 1 + (rs.take i).countP (fun r => r.body = .finish) else 1

theorem scopeAt_eq (scoping : Bool) (rs : List Record) (i : Nat) :
    scopeAt scoping rs i = 1 + ((rs.take i).map (Record.closedScopes scoping)).sum := by
  rw [scopeAt]
  generalize rs.take i = before
  cases scoping with
  | false =>
    have hzero : Record.closedScopes false = fun _ => 0 := rfl
    simp [hzero]
  | true =>
    rw [if_pos rfl, Nat.add_left_cancel_iff]
    induction before with
    | nil => rfl
    | cons r before ih =>
      rw [List.countP_cons, ih, List.map_cons, List.sum_cons, Record.closedScopes, Nat.add_comm]
      simp

/-- The record that stands at a place of a source text, once its literals have
names and it is laid out. Its names have no addresses yet. -/
def placed (scoping : Bool) (rs : List Record) (i : Nat) (r : Record) : Record :=
  { r.pooled ((rs.take i).map Record.literalCount).sum with
    scope := scopeAt scoping rs i
    offset := ((rs.take i).map Record.byteLength).sum }

/-- The layout of a source text. -/
def layout (scoping : Bool) (rs : List Record) : Layout :=
  Layout.ofRecords scoping (LiteralPool.ofRecords 0 rs).records
    (LiteralPool.ofRecords 0 rs).generated

@[simp] theorem byteLength_placed (scoping : Bool) (rs : List Record) (i : Nat) (r : Record) :
    (placed scoping rs i r).byteLength = r.byteLength :=
  r.byteLength_pooled _

@[simp] theorem wordCount_placed (scoping : Bool) (rs : List Record) (i : Nat) (r : Record) :
    (placed scoping rs i r).wordCount = r.wordCount :=
  r.wordCount_pooled _

/-- The operands of a laid out record are those of the source with names for literals,
which count all literals before them. -/
theorem getElem?_operands_placed (scoping : Bool) (rs : List Record) (i : Nat) (r : Record)
    (j : Nat) : (placed scoping rs i r).operands[j]? = r.operands[j]?.map fun operand =>
      operand.pooled (((rs.take i).map Record.literalCount).sum +
        ((r.operands.take j).map Operand.literalCount).sum) := by
  have hpooled := r.body.operands_pooled ((rs.take i).map Record.literalCount).sum
  rw [Record.operands, placed, Record.pooled, hpooled, List.getElem?_map, Tally.getElem?_running,
    Record.operands]
  cases r.body.operands[j]? <;> rfl

theorem getElem?_layout (scoping : Bool) (rs : List Record) (i : Nat) :
    (layout scoping rs).records[i]? = rs[i]?.map (placed scoping rs i) := by
  have htake {f : Record → Nat} (hf : ∀ n r, f (Record.pooled r n) = f r) :
      ((LiteralPool.ofRecords 0 rs).records.take i).map f = (rs.take i).map f := by
    rw [List.map_take, LiteralPool.map_records hf, List.map_take]
  have hscopes : ((Layout.assignScopes scoping (LiteralPool.ofRecords 0 rs).records).take i).map
      Record.byteLength = (rs.take i).map Record.byteLength := by
    rw [List.map_take, Layout.map_assignScopes fun _ _ => rfl, ← List.map_take,
      htake fun n r => r.byteLength_pooled n]
  rw [layout, Layout.ofRecords, Layout.getElem?_place, Layout.getElem?_assignScopes,
    LiteralPool.getElem?_records, hscopes, htake fun n r => r.closedScopes_pooled scoping n,
    ← scopeAt_eq]
  cases rs[i]? with
  | none => rfl
  | some r => simp [placed]

theorem placed_mem_layout {scoping : Bool} {rs : List Record} {i : Nat} {r : Record}
    (hr : rs[i]? = some r) : placed scoping rs i r ∈ (layout scoping rs).records := by
  apply List.mem_of_getElem? (i := i)
  rw [getElem?_layout, hr]
  rfl

theorem map_byteLength_layout (scoping : Bool) (rs : List Record) :
    (layout scoping rs).records.map Record.byteLength = rs.map Record.byteLength := by
  rw [layout, Layout.ofRecords, Layout.map_place fun _ _ => rfl,
    Layout.map_assignScopes fun _ _ => rfl,
    LiteralPool.map_records fun n r => r.byteLength_pooled n]

/-- The pooled data is laid out behind the records. -/
theorem getElem?_generated_layout (scoping : Bool) (rs : List Record) (i : Nat) :
    (layout scoping rs).generated[i]? = (LiteralPool.ofRecords 0 rs).generated[i]?.map fun g =>
      { g with offset := (rs.map Record.byteLength).sum +
          (((LiteralPool.ofRecords 0 rs).generated.take i).map Record.byteLength).sum } := by
  rw [layout, Layout.ofRecords, Layout.getElem?_place, Layout.byteLength, Tally.total_eq_sum,
    LiteralPool.map_records fun n r => r.byteLength_pooled n]

end Assembly

end Comet
