import Comet.Proofs.ImageLayout
import Comet.Proofs.References
import Mathlib.Data.List.Pairwise

/-!
# The lines of addresses

Debuggers look up the line of an address in a table that has a row for the first record of every
line that emits words. The row that they take is the last one that is not behind the address.

That row is the right one for two reasons. Records stand one after another, so the words of a
record are behind all words before it, and the lines of records never decrease. And the first record
of a line emits a word if any record of the line does, so no words of a line stand before its row.
The data of literals stands behind all records and has no rows.
-/

namespace Comet

namespace AddressTable

/-- The row with the greatest address that is not behind the given one. -/
structure Reaches (table : AddressTable) (address : Nat) (row : Nat × Nat) : Prop where
  mem : row ∈ table
  le : row.1 ≤ address
  greatest : ∀ other ∈ table, other.1 ≤ address → other.1 ≤ row.1

theorem insert_of_forall_lt {table : AddressTable} {address : Nat} (line : Nat)
    (h : ∀ row ∈ table, row.1 < address) :
    insert address line table = table ++ [(address, line)] := by
  induction table with
  | nil => rfl
  | cons row table ih =>
    have hlt : row.1 < address := h row (.head _)
    rw [insert, if_neg (by omega), if_neg (by omega), ih fun row hrow => h row (.tail _ hrow)]
    rfl

/-- Rows that come in the order of their addresses are kept as they are. -/
theorem ofPairs_of_pairwise {pairs : List (Nat × Nat)} (h : pairs.Pairwise fun p q => p.1 < q.1) :
    ofPairs pairs = pairs := by
  have hfoldl (table : AddressTable) (htable : ∀ row ∈ table, ∀ p ∈ pairs, row.1 < p.1) :
      pairs.foldl (fun table p => insert p.1 p.2 table) table = table ++ pairs := by
    induction pairs generalizing table with
    | nil => simp
    | cons p pairs ih =>
      obtain ⟨hp, hpairs⟩ := List.pairwise_cons.1 h
      have hinsert : insert p.1 p.2 table = table ++ [p] :=
        insert_of_forall_lt p.2 fun row hrow => htable row hrow p (.head _)
      rw [List.foldl_cons, hinsert, ih hpairs, List.append_assoc, List.singleton_append]
      intro row hrow q hq
      rcases List.mem_append.1 hrow with hrow | hrow
      · exact htable row hrow q (.tail _ hq)
      · rw [List.mem_singleton.1 hrow]
        exact hp q hq
  simpa [ofPairs] using hfoldl [] (by simp)

end AddressTable

/-! ## The records of a line -/

/-- What a record has to do with its line. -/
structure LinePart where
  line : Nat
  continuation : Bool
  wordCount : Nat
  deriving DecidableEq, Repr

/-- All that the table of lines depends on, apart from the address. -/
def Record.linePart (r : Record) : LinePart := ⟨r.line, r.continuation, r.wordCount⟩

namespace LinePart

/-- The second part stands behind the first one. It is on a later line unless it continues one. -/
def Precedes (p q : LinePart) : Prop :=
  p.line ≤ q.line ∧ (q.continuation = false → p.line < q.line)

/-- Parts in the order of their lines, each line of which emits a word at once or not at all. -/
structure IsSequence (parts : List LinePart) : Prop where
  ordered : parts.Pairwise Precedes
  begun : ∀ p ∈ parts, 0 < p.wordCount → ∃ first ∈ parts, first.line = p.line ∧
    first.continuation = false ∧ 0 < first.wordCount

namespace IsSequence

theorem nil : IsSequence [] := ⟨.nil, by simp⟩

theorem append {ps qs : List LinePart} (hps : IsSequence ps) (hqs : IsSequence qs)
    (hlines : ∀ p ∈ ps, ∀ q ∈ qs, p.line < q.line) : IsSequence (ps ++ qs) where
  ordered := by
    refine List.pairwise_append.2 ⟨hps.ordered, hqs.ordered, fun p hp q hq => ?_⟩
    have hlt := hlines p hp q hq
    exact ⟨hlt.le, fun _ => hlt⟩
  begun := by
    intro p hp hwords
    rcases List.mem_append.1 hp with hp | hp
    · obtain ⟨first, hfirst, hbegins⟩ := hps.begun p hp hwords
      exact ⟨first, List.mem_append_left qs hfirst, hbegins⟩
    · obtain ⟨first, hfirst, hbegins⟩ := hqs.begun p hp hwords
      exact ⟨first, List.mem_append_right ps hfirst, hbegins⟩

end IsSequence

end LinePart

namespace Statement

/-- An instruction with more than one body emits words with each of them. -/
theorem HasBodies.wordCount_pos {m : Mnemonic} {operands : Operands} {bodies : List Body}
    (h : HasBodies m operands bodies) :
    bodies.length ≤ 1 ∨ ∀ b ∈ bodies, 0 < b.wordCount := by
  cases h with
  | fillers positive =>
    refine .inr fun b hb => ?_
    rw [(List.mem_replicate.1 hb).2]
    exact Nat.one_pos
  | data =>
    refine .inr fun b hb => ?_
    obtain ⟨word, -, rfl⟩ := List.mem_map.1 hb
    exact Nat.one_pos
  | _ => exact .inl (Nat.le_refl 1)

/-- The first record of a statement begins its line, and the others continue it. -/
theorem isSequence_recordsOf (s : Statement) (line : Nat) (tokens : List Token)
    {bodies : List Body} (h : HasBodies s.mnemonic s.operands bodies) :
    LinePart.IsSequence ((s.recordsOf line tokens bodies).map Record.linePart) := by
  have hwords := h.wordCount_pos
  cases bodies with
  | nil => exact .nil
  | cons b rest =>
    have hparts : (s.recordsOf line tokens (b :: rest)).map Record.linePart =
        ⟨line, false, b.wordCount⟩ :: rest.map fun b => ⟨line, true, b.wordCount⟩ := by
      rw [recordsOf, List.map_cons, List.map_map]
      rfl
    have hprecedes (p : LinePart) (hp : p.line = line) (count : Nat) :
        p.Precedes ⟨line, true, count⟩ := ⟨hp.le, by simp⟩
    rw [hparts]
    constructor
    · refine List.pairwise_cons.2 ⟨fun q hq => ?_, ?_⟩
      · obtain ⟨b', -, rfl⟩ := List.mem_map.1 hq
        exact hprecedes _ rfl _
      · refine List.pairwise_map.2 (List.pairwise_of_forall fun b' b'' => ?_)
        exact hprecedes _ rfl _
    · intro p hp hpos
      refine ⟨_, .head _, ?_, rfl, ?_⟩
      · rcases List.mem_cons.1 hp with rfl | hp
        · rfl
        · obtain ⟨b', -, rfl⟩ := List.mem_map.1 hp
          rfl
      · rcases List.mem_cons.1 hp with rfl | hp
        · exact hpos
        · -- There is a second record, so all of them emit words.
          obtain ⟨b', hb', rfl⟩ := List.mem_map.1 hp
          have hlength := List.length_pos_of_mem hb'
          rcases hwords with hshort | hall
          · rw [List.length_cons] at hshort
            omega
          · exact hall b (.head _)

end Statement

namespace Assembly

variable {gr8 : Bool} {lines : List String} {reading : Statement.Reading}

theorem isSequence_of_readLine {number : Nat} {source : String}
    (h : readLine gr8 number source = .ok reading) :
    LinePart.IsSequence (reading.records.map Record.linePart) := by
  rcases statement_of_readLine h with hnil | ⟨tokens, s, rest, bodies, -, -, hbodies, heq⟩
  · rw [hnil]
    exact .nil
  · rw [heq]
    exact Statement.isSequence_recordsOf s number tokens hbodies

theorem isSequence_of_forall₂ {numbered : List (String × Nat)}
    {readings : List Statement.Reading} (hnumbers : numbered.Pairwise fun p q => p.2 < q.2)
    (h : List.Forall₂ (fun p reading => readLine gr8 p.2 p.1 = .ok reading) numbered readings) :
    LinePart.IsSequence ((readings.flatMap (·.records)).map Record.linePart) := by
  induction h with
  | nil => exact .nil
  | @cons p reading numbered readings hread hrest ih =>
    obtain ⟨hbefore, hnumbers⟩ := List.pairwise_cons.1 hnumbers
    rw [List.flatMap_cons, List.map_append]
    refine (isSequence_of_readLine hread).append (ih hnumbers) fun part hpart part' hpart' => ?_
    obtain ⟨r, hr, rfl⟩ := List.mem_map.1 hpart
    obtain ⟨r', hr', rfl⟩ := List.mem_map.1 hpart'
    obtain ⟨reading', hreading', hr'⟩ := List.mem_flatMap.1 hr'
    obtain ⟨q, hq, hread'⟩ :=
      Traversal.exists_of_mem_mapM (Traversal.mapM_eq_ok_iff.2 hrest) hreading'
    change r.line < r'.line
    rw [line_of_readLine hread hr, line_of_readLine hread' hr']
    exact hbefore q hq

/-- The records of a source text are in the order of its lines. -/
theorem isSequence_of_readLines (h : readLines gr8 lines = .ok reading) :
    LinePart.IsSequence (reading.records.map Record.linePart) := by
  obtain ⟨readings, hreadings, rfl⟩ := forall₂_of_readLines h
  exact isSequence_of_forall₂ (Occurrence.pairwise_zipIdx lines 0) hreadings

/-- The assembly changes neither the lines of records nor their lengths. -/
theorem map_linePart_analyzeRecords (scoping : Bool) (reading : Statement.Reading) :
    (analyzeRecords scoping reading).records.map Record.linePart =
      reading.records.map Record.linePart := by
  have hresolve : Record.linePart ∘ Record.resolve .exact (labels scoping reading.records) =
      Record.linePart := by
    funext r
    simp [Record.linePart, Record.resolve, Record.mapOperands, Record.wordCount]
  have hpooled (n : Nat) (r : Record) : (r.pooled n).linePart = r.linePart := by
    simp [Record.linePart, Record.pooled, Record.wordCount]
  rw [records_analyzeRecords, List.map_map, hresolve, layout, Layout.ofRecords,
    Layout.map_place fun _ _ => rfl, Layout.map_assignScopes fun _ _ => rfl,
    LiteralPool.map_records hpooled]

/-- A line of the source adds words to the program. -/
def Emits (gr8 : Bool) (lines : List String) (number : Nat) : Prop :=
  ∃ source reading, lines[number]? = some source ∧ readLine gr8 number source = .ok reading ∧
    ∃ r ∈ reading.records, 0 < r.wordCount

theorem exists_record_of_readLines (h : readLines gr8 lines = .ok reading) (number : Nat) :
    (∃ r ∈ reading.records, r.line = number ∧ 0 < r.wordCount) ↔ Emits gr8 lines number := by
  obtain ⟨readings, hreadings, rfl⟩ := Traversal.bind_pure_eq_ok.1 h
  constructor
  · rintro ⟨r, hr, rfl, hwords⟩
    obtain ⟨lineReading, hmem, hr⟩ := List.mem_flatMap.1 hr
    obtain ⟨p, hp, hread⟩ := Traversal.exists_of_mem_mapM hreadings hmem
    have hline : r.line = p.2 := line_of_readLine hread hr
    rw [hline]
    exact ⟨p.1, lineReading, List.mem_zipIdx_iff_getElem?.1 hp, hread, r, hr, hwords⟩
  · rintro ⟨source, lineReading, hsource, hread, r, hr, hwords⟩
    have hp : lines.zipIdx[number]? = some (source, number) := by simp [hsource]
    obtain ⟨lineReading', hmem, hread'⟩ := Traversal.getElem?_of_mapM hreadings hp
    obtain rfl := Except.ok.inj (hread.symm.trans hread')
    exact ⟨r, List.mem_flatMap.2 ⟨_, List.mem_of_getElem? hmem, hr⟩, line_of_readLine hread hr,
      hwords⟩

/-- The records of an analysis are on the lines that emit something. -/
theorem exists_record_analyzeRecords (h : readLines gr8 lines = .ok reading) (scoping : Bool)
    (number : Nat) :
    (∃ r ∈ (analyzeRecords scoping reading).records, r.line = number ∧ 0 < r.wordCount) ↔
      Emits gr8 lines number := by
  have hparts (rs : List Record) : (∃ r ∈ rs, r.line = number ∧ 0 < r.wordCount) ↔
      ∃ p ∈ rs.map Record.linePart, p.line = number ∧ 0 < p.wordCount := by
    simp [Record.linePart]
  rw [← exists_record_of_readLines h, hparts, hparts, map_linePart_analyzeRecords]

end Assembly

/-! ## The words of records -/

namespace Record

/-- A word of the record stands at the address. -/
def Occupies (r : Record) (address : Nat) : Prop :=
  r.address ≤ address ∧ address < r.address + r.wordCount

/-- The second record stands behind the words of the first one, and so do their lines. -/
def Before (r s : Record) : Prop :=
  r.address + r.wordCount ≤ s.address ∧ r.linePart.Precedes s.linePart

theorem lineAddress?_eq_some {r : Record} (h : r.IsMeasured) {row : Nat × Nat} :
    DebugInfo.lineAddress? r = some row ↔
      r.continuation = false ∧ 0 < r.wordCount ∧ (r.address, r.line) = row := by
  rw [IsMeasured] at h
  rw [DebugInfo.lineAddress?, h]
  simp [and_assoc]

end Record

namespace Layout

variable {start : Nat} {rs : List Record}

theorem address_of_isPlaced {r : Record} (h : r.offset = 2 * start) : r.address = start := by
  rw [Record.address, h]
  omega

theorem IsPlaced.tail {r : Record} (h : IsPlaced (2 * start) (r :: rs)) (hr : r.IsMeasured) :
    IsPlaced (2 * (start + r.wordCount)) rs := by
  have hplaced := h.2
  rw [hr, ← Nat.mul_add] at hplaced
  exact hplaced

theorem IsPlaced.pairwise_address (h : IsPlaced (2 * start) rs) (hm : ∀ r ∈ rs, r.IsMeasured) :
    (∀ r ∈ rs, start ≤ r.address) ∧
      rs.Pairwise fun r s => r.address + r.wordCount ≤ s.address := by
  induction rs generalizing start with
  | nil => exact ⟨by simp, .nil⟩
  | cons r rs ih =>
    have haddress := address_of_isPlaced h.1
    obtain ⟨hbounds, hpairwise⟩ := ih (h.tail (hm r (.head _))) fun s hs => hm s (.tail _ hs)
    refine ⟨List.forall_mem_cons.2 ⟨haddress.ge, fun s hs => ?_⟩,
      List.pairwise_cons.2 ⟨fun s hs => ?_, hpairwise⟩⟩
    · have hs := hbounds s hs
      omega
    · rw [haddress]
      exact hbounds s hs

/-- Records leave no address out. -/
theorem IsPlaced.exists_occupies (h : IsPlaced (2 * start) rs) (hm : ∀ r ∈ rs, r.IsMeasured)
    {address : Nat} (hlow : start ≤ address)
    (hhigh : address < start + (rs.map Record.wordCount).sum) :
    ∃ r ∈ rs, r.Occupies address := by
  induction rs generalizing start with
  | nil =>
    simp at hhigh
    omega
  | cons r rs ih =>
    have haddress := address_of_isPlaced h.1
    rw [List.map_cons, List.sum_cons] at hhigh
    by_cases hlt : address < start + r.wordCount
    · refine ⟨r, .head _, ?_⟩
      rw [Record.Occupies, haddress]
      exact ⟨hlow, hlt⟩
    · obtain ⟨s, hs, hoccupies⟩ := ih (h.tail (hm r (.head _))) (fun s hs => hm s (.tail _ hs))
        (by omega) (by omega)
      exact ⟨s, .tail _ hs, hoccupies⟩

/-- Records that are laid out in the order of their lines. -/
structure FollowsLines (rs : List Record) : Prop where
  placed : IsPlaced 0 rs
  measured : ∀ r ∈ rs, r.IsMeasured
  sequence : LinePart.IsSequence (rs.map Record.linePart)

namespace FollowsLines

variable {r s : Record} (h : FollowsLines rs)

include h

theorem pairwise_before : rs.Pairwise Record.Before :=
  (@IsPlaced.pairwise_address 0 rs h.placed h.measured).2.and
    (List.pairwise_map.1 h.sequence.ordered)

theorem eq_or_before (hr : r ∈ rs) (hs : s ∈ rs) : r = s ∨ r.Before s ∨ s.Before r := by
  have hbefore := List.pairwise_iff_getElem.1 h.pairwise_before
  obtain ⟨i, hi, rfl⟩ := List.getElem_of_mem hr
  obtain ⟨j, hj, rfl⟩ := List.getElem_of_mem hs
  rcases Nat.lt_trichotomy i j with hlt | rfl | hlt
  · exact .inr (.inl (hbefore i j hi hj hlt))
  · exact .inl rfl
  · exact .inr (.inr (hbefore j i hj hi hlt))

theorem eq_of_occupies (hr : r ∈ rs) (hs : s ∈ rs) {address : Nat} (hraddress : r.Occupies address)
    (hsaddress : s.Occupies address) : r = s := by
  obtain ⟨hrlow, hrhigh⟩ := hraddress
  obtain ⟨hslow, hshigh⟩ := hsaddress
  rcases h.eq_or_before hr hs with heq | ⟨hbefore, -⟩ | ⟨hbefore, -⟩
  · exact heq
  · omega
  · omega

/-- A line that emits something has a first record, and that emits something. -/
theorem exists_first (hr : r ∈ rs) (hwords : 0 < r.wordCount) :
    ∃ first ∈ rs, first.line = r.line ∧ first.continuation = false ∧ 0 < first.wordCount := by
  obtain ⟨_, hpart, hline, hbegins, hfirst⟩ :=
    h.sequence.begun r.linePart (List.mem_map_of_mem hr) hwords
  obtain ⟨first, hmem, rfl⟩ := List.mem_map.1 hpart
  exact ⟨first, hmem, hline, hbegins, hfirst⟩

theorem mem_rows {row : Nat × Nat} :
    row ∈ rs.filterMap DebugInfo.lineAddress? ↔
      ∃ r ∈ rs, r.continuation = false ∧ 0 < r.wordCount ∧ (r.address, r.line) = row := by
  rw [List.mem_filterMap]
  constructor
  · rintro ⟨r, hr, hrow⟩
    exact ⟨r, hr, (Record.lineAddress?_eq_some (h.measured r hr)).1 hrow⟩
  · rintro ⟨r, hr, hrow⟩
    exact ⟨r, hr, (Record.lineAddress?_eq_some (h.measured r hr)).2 hrow⟩

theorem pairwise_rows :
    (rs.filterMap DebugInfo.lineAddress?).Pairwise fun p q => p.1 < q.1 ∧ p.2 < q.2 := by
  refine List.pairwise_filterMap.2 (h.pairwise_before.imp_of_mem ?_)
  rintro r s hr hs ⟨haddress, -, hline⟩ p hp q hq
  obtain ⟨-, hwords, rfl⟩ := (Record.lineAddress?_eq_some (h.measured r hr)).1 hp
  obtain ⟨hbegins, -, rfl⟩ := (Record.lineAddress?_eq_some (h.measured s hs)).1 hq
  exact ⟨by omega, hline hbegins⟩

/-- A line has one row at most. -/
theorem address_unique {a b line : Nat} (ha : (a, line) ∈ rs.filterMap DebugInfo.lineAddress?)
    (hb : (b, line) ∈ rs.filterMap DebugInfo.lineAddress?) : a = b := by
  obtain ⟨r, hr, hrbegins, -, hrow⟩ := h.mem_rows.1 ha
  obtain ⟨s, hs, hsbegins, -, hrow'⟩ := h.mem_rows.1 hb
  obtain ⟨rfl, rfl⟩ := Prod.mk.inj hrow
  obtain ⟨rfl, hline⟩ := Prod.mk.inj hrow'
  rcases h.eq_or_before hr hs with rfl | ⟨-, -, hlt⟩ | ⟨-, -, hlt⟩
  · rfl
  · have hlt : r.line < s.line := hlt hsbegins
    omega
  · have hlt : s.line < r.line := hlt hrbegins
    omega

/-- The row that an address reaches is that of the first record of its line. -/
theorem exists_reaches (hr : r ∈ rs) {address : Nat} (hoccupies : r.Occupies address) :
    ∃ row, AddressTable.Reaches (rs.filterMap DebugInfo.lineAddress?) address row ∧
      row.2 = r.line := by
  obtain ⟨hlow, hhigh⟩ := hoccupies
  obtain ⟨first, hfirst, hline, hbegins, hwords⟩ := h.exists_first hr (by omega)
  -- A record that begins its line does not stand behind another record of the line.
  have hle : first.address ≤ r.address := by
    rcases h.eq_or_before hfirst hr with rfl | ⟨hbefore, -⟩ | ⟨-, -, hlt⟩
    · exact Nat.le_refl _
    · omega
    · have hlt : r.line < first.line := hlt hbegins
      omega
  refine ⟨(first.address, first.line),
    ⟨h.mem_rows.2 ⟨first, hfirst, hbegins, hwords, rfl⟩, hle.trans hlow, ?_⟩, hline⟩
  intro other hother hother_le
  obtain ⟨s, hs, hsbegins, -, rfl⟩ := h.mem_rows.1 hother
  change s.address ≤ address at hother_le
  change s.address ≤ first.address
  rcases h.eq_or_before hs hfirst with rfl | ⟨hbefore, -⟩ | ⟨-, -, hlt⟩
  · exact Nat.le_refl _
  · omega
  · -- The line of `s` is a later one, so `s` stands behind the words of `r`.
    have hlt : first.line < s.line := hlt hsbegins
    rcases h.eq_or_before hs hr with rfl | ⟨-, hle, -⟩ | ⟨hbefore, -⟩
    · omega
    · have hle : s.line ≤ r.line := hle
      omega
    · omega

end FollowsLines

end Layout

/-- The table has one row for each line that emits something, in order, and finds the line of every
address of the records. -/
structure IsLineTable (records : List Record) (table : AddressTable) : Prop where
  increasing : table.Pairwise fun p q => p.1 < q.1 ∧ p.2 < q.2
  exists_row : ∀ r ∈ records, 0 < r.wordCount → ∃! address, (address, r.line) ∈ table
  exists_record : ∀ row ∈ table, ∃ r ∈ records, r.line = row.2 ∧ 0 < r.wordCount
  occupied : ∀ address < (records.map Record.wordCount).sum,
    ∃! r, r ∈ records ∧ r.Occupies address
  reached : ∀ r ∈ records, ∀ address, r.Occupies address →
    ∃ row, table.Reaches address row ∧ row.2 = r.line

theorem Layout.FollowsLines.isLineTable {rs : List Record} (h : Layout.FollowsLines rs) :
    IsLineTable rs (.ofPairs (rs.filterMap DebugInfo.lineAddress?)) := by
  have hincreasing := h.pairwise_rows
  rw [AddressTable.ofPairs_of_pairwise (hincreasing.imp fun hlt => hlt.1)]
  constructor
  case increasing => exact hincreasing
  case exists_row =>
    intro r hr hwords
    obtain ⟨first, hfirst, hline, hbegins, hfirstWords⟩ := h.exists_first hr hwords
    have hrow : (first.address, r.line) ∈ rs.filterMap DebugInfo.lineAddress? :=
      h.mem_rows.2 ⟨first, hfirst, hbegins, hfirstWords, by rw [hline]⟩
    exact ⟨first.address, hrow, fun address haddress => h.address_unique haddress hrow⟩
  case exists_record =>
    intro row hrow
    obtain ⟨r, hr, -, hwords, rfl⟩ := h.mem_rows.1 hrow
    exact ⟨r, hr, rfl, hwords⟩
  case occupied =>
    intro address hlt
    obtain ⟨r, hr, hoccupies⟩ := @IsPlaced.exists_occupies 0 rs h.placed h.measured address
      (Nat.zero_le _) (by omega)
    exact ⟨r, ⟨hr, hoccupies⟩, fun s hs => h.eq_of_occupies hs.1 hr hs.2 hoccupies⟩
  case reached => exact fun r hr address hoccupies => h.exists_reaches hr hoccupies

namespace LiteralPool

theorem continuation_of_mem_block {p : Occurrence × Nat} {r : Record} (h : r ∈ block p) :
    r.continuation = true := by
  rw [block, Operand.pooledData] at h
  split at h
  · cases h
  · rcases List.mem_cons.1 h with rfl | h
    · rfl
    · obtain ⟨word, -, rfl⟩ := List.mem_map.1 h
      rfl

end LiteralPool

namespace Assembly

variable {options : Options} {lines : List String}

/-- Pooled data continues the lines of its literals, so it has no rows. -/
theorem filterMap_lineAddress?_generated (scoping : Bool) (rs : List Record) :
    (layout scoping rs).generated.filterMap DebugInfo.lineAddress? = [] := by
  refine List.filterMap_eq_nil_iff.2 fun r hr => ?_
  obtain ⟨i, hi⟩ := List.mem_iff_getElem?.1 hr
  rw [getElem?_generated_layout, Option.map_eq_some_iff] at hi
  obtain ⟨g, hg, rfl⟩ := hi
  have hmem := List.mem_of_getElem? hg
  rw [LiteralPool.generated_eq] at hmem
  obtain ⟨p, -, hblock⟩ := List.mem_flatMap.1 hmem
  simp [DebugInfo.lineAddress?, LiteralPool.continuation_of_mem_block hblock]

theorem followsLines_analyzeRecords {gr8 : Bool} {reading : Statement.Reading}
    (h : readLines gr8 lines = .ok reading) (scoping : Bool) :
    Layout.FollowsLines (analyzeRecords scoping reading).records where
  placed := by
    have hplaced := Layout.isPlaced_append.1 (Layout.isPlaced_ofRecords scoping
      (LiteralPool.ofRecords 0 reading.records).records
      (LiteralPool.ofRecords 0 reading.records).generated)
    exact hplaced.1.map (fun _ => rfl) (Record.byteLength_resolve _ _)
  measured := by
    intro r hr
    rw [records_analyzeRecords] at hr
    obtain ⟨laidOut, hlaidOut, rfl⟩ := List.mem_map.1 hr
    obtain ⟨i, hi⟩ := List.mem_iff_getElem?.1 hlaidOut
    rw [getElem?_layout, Option.map_eq_some_iff] at hi
    obtain ⟨p, hp, rfl⟩ := hi
    have hwf := (isRead_of_readLines h p (List.mem_of_getElem? hp)).wellFormed
    simpa [Record.IsMeasured] using hwf.isMeasured
  sequence := by
    rw [map_linePart_analyzeRecords]
    exact isSequence_of_readLines h

/-- The debug information of a program is faithful. It has one row for each line that adds words to
the program, the lines increase with the addresses, and every address of the records leads to the
line of the record that occupies it. -/
theorem isLineTable_of_compile {c : Compilation} (h : compile options lines = .ok c) :
    ∃ a, analyze options lines = .ok a ∧ c.records = a.records ++ a.generated ∧
      IsLineTable a.records c.debugInfo.addressLines ∧
      ∀ number, Emits options.gr8 lines number ↔
        ∃! address, (address, number) ∈ c.debugInfo.addressLines := by
  obtain ⟨reading, hread, -⟩ := exists_readLines options.gr8 lines
  have hrecords := records_of_compile ((compile_eq_ok_iff hread).1 h)
  have htable : IsLineTable (analyzeRecords options.scoping reading).records
      c.debugInfo.addressLines := by
    rw [Compilation.debugInfo, DebugInfo.ofRecords, hrecords, List.filterMap_append,
      generated_analyzeRecords, filterMap_lineAddress?_generated, List.append_nil]
    exact (followsLines_analyzeRecords hread options.scoping).isLineTable
  refine ⟨_, analyze_of_readLines hread, hrecords, htable, fun number => ?_⟩
  rw [← exists_record_analyzeRecords hread options.scoping]
  constructor
  · rintro ⟨r, hr, rfl, hwords⟩
    exact htable.exists_row r hr hwords
  · rintro ⟨address, hrow, -⟩
    exact htable.exists_record (address, number) hrow

/-- The pooled data of the fourth line stands at the addresses from 17 on. -/
theorem isLineTable_twoSubroutines :
    ∃ c a, compile { scoping := true } twoSubroutines = .ok c ∧
      c.debugInfo.addressLines = [(0, 1), (2, 2), (4, 3), (7, 4), (9, 5), (10, 8), (12, 9),
        (14, 10), (16, 11)] ∧
      analyze { scoping := true } twoSubroutines = .ok a ∧
      IsLineTable a.records c.debugInfo.addressLines ∧
      ∀ number, Emits false twoSubroutines number ↔
        ∃! address, (address, number) ∈ c.debugInfo.addressLines := by
  have htable : (compile { scoping := true } twoSubroutines).toOption.map
      (·.debugInfo.addressLines) = some [(0, 1), (2, 2), (4, 3), (7, 4), (9, 5), (10, 8),
        (12, 9), (14, 10), (16, 11)] := by decide +kernel
  obtain ⟨c, hc, htable⟩ := Option.map_eq_some_iff.1 htable
  rw [Traversal.toOption_eq_some] at hc
  obtain ⟨a, ha, -, hlines, hemits⟩ := isLineTable_of_compile hc
  exact ⟨c, a, hc, htable, ha, hlines, hemits⟩

end Assembly

end Comet
