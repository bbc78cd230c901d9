import Comet.Proofs.Placement
import Comet.Proofs.Traversal

/-!
# The words of an image

Records are encoded one after another, so the words of a record stand at the place
that the lengths of the records before it give, which is its address. This is where
lengths in bytes, from the table of operation codes, have to agree with the words
that are there.
-/

namespace Comet

namespace Record

variable {r : Record} {ws : List Word}

theorem words_eq_ok :
    r.words = .ok ws ↔
      ∃ us, r.operands.mapM (Operand.word r.line) = .ok us ∧ r.body.headWords ++ us = ws := by
  rw [words_eq, Traversal.map_eq_ok]

theorem length_of_words (h : r.words = .ok ws) : ws.length = r.wordCount := by
  obtain ⟨us, hus, rfl⟩ := words_eq_ok.1 h
  rw [List.length_append, Traversal.length_of_mapM hus]
  rfl

/-- The word of an operand stands after those of the head. -/
theorem getElem?_of_words (h : r.words = .ok ws) {j : Nat} {operand : Operand}
    (hoperand : r.operands[j]? = some operand) :
    ∃ word, ws[r.body.headWords.length + j]? = some word ∧ operand.word r.line = .ok word := by
  obtain ⟨us, hus, rfl⟩ := words_eq_ok.1 h
  obtain ⟨word, hword, hoperand⟩ := Traversal.getElem?_of_mapM hus hoperand
  refine ⟨word, ?_, hoperand⟩
  rw [List.getElem?_append_right (Nat.le_add_right _ _), Nat.add_sub_cancel_left]
  exact hword

end Record

theorem Operand.word_resolved_eq_ok {line : Nat} {value : Int} {word : Word}
    (h : (Operand.resolved value).word line = .ok word) :
    Word.fits value = true ∧ word = .ofValue value := by
  rw [Operand.word] at h
  split at h
  · rename_i hfits
    exact ⟨hfits, (Except.ok.inj h).symm⟩
  · cases h

/-- An address that fits in a word is stored as it is. -/
theorem Word.toNat_ofValue_natCast {n : Nat} (h : Word.fits (n : Int) = true) :
    (Word.ofValue n).toNat = n := by
  have hle := (Word.fits_iff.1 h).2
  have hmod : ((n : Int) % 65536).toNat = n := by omega
  rw [Word.ofValue, hmod, UInt16.toNat_ofNat']
  exact Nat.mod_eq_of_lt (by omega)

namespace Image

variable {rs rs' : List Record} {ws : List Word}

theorem exists_code (h : ∀ r ∈ rs, ∃ ws, r.words = .ok ws) : ∃ ws, code rs = .ok ws := by
  obtain ⟨wss, hwss⟩ := Traversal.exists_mapM h
  exact ⟨wss.flatten, by rw [code, hwss]; rfl⟩

theorem code_nil_eq_ok : code [] = .ok ws ↔ ws = [] := by
  simp [code, bind, Except.bind, pure, Except.pure, eq_comm]

theorem code_cons_eq_ok {r : Record} :
    code (r :: rs) = .ok ws ↔
      ∃ u v, r.words = .ok u ∧ code rs = .ok v ∧ ws = u ++ v := by
  simp only [code, Traversal.bind_eq_ok, Traversal.mapM_eq_ok_iff, List.forall₂_cons_left_iff]
  constructor
  · rintro ⟨_, ⟨u, us, hu, hus, rfl⟩, h⟩
    exact ⟨u, us.flatten, hu, ⟨us, hus, rfl⟩, (Except.ok.inj h).symm⟩
  · rintro ⟨u, v, hu, ⟨us, hus, hv⟩, rfl⟩
    cases hv
    exact ⟨u :: us, ⟨u, us, hu, hus, rfl⟩, rfl⟩

theorem code_append_eq_ok :
    code (rs ++ rs') = .ok ws ↔
      ∃ u v, code rs = .ok u ∧ code rs' = .ok v ∧ ws = u ++ v := by
  induction rs generalizing ws with
  | nil => simp [code_nil_eq_ok]
  | cons r rs ih =>
    rw [List.cons_append, code_cons_eq_ok]
    constructor
    · rintro ⟨u, v, hu, hvs, rfl⟩
      obtain ⟨v, v', hv, hv', rfl⟩ := ih.1 hvs
      exact ⟨u ++ v, v', code_cons_eq_ok.2 ⟨u, v, hu, hv, rfl⟩, hv', (List.append_assoc ..).symm⟩
    · rintro ⟨u', v', hu', hv', rfl⟩
      obtain ⟨u, v, hu, hv, rfl⟩ := code_cons_eq_ok.1 hu'
      exact ⟨u, v ++ v', hu, ih.2 ⟨v, v', hv, hv', rfl⟩, List.append_assoc ..⟩

/-- The code of records is as long as their lengths say. -/
theorem length_of_code (h : code rs = .ok ws) (hm : ∀ r ∈ rs, r.IsMeasured) :
    2 * ws.length = (rs.map Record.byteLength).sum := by
  induction rs generalizing ws with
  | nil => simp [code_nil_eq_ok.1 h]
  | cons r rs ih =>
    obtain ⟨u, v, hu, hv, rfl⟩ := code_cons_eq_ok.1 h
    have hr : r.byteLength = 2 * r.wordCount := hm r (.head rs)
    have hrs := ih hv fun r hr => hm r (.tail _ hr)
    rw [List.length_append, Record.length_of_words hu, List.map_cons, List.sum_cons]
    omega

/-- What code has at the place of a record. -/
structure Holds (ws : List Word) (r : Record) (u : List Word) : Prop where
  words : r.words = .ok u
  offset : r.offset = 2 * r.address
  slice : (ws.drop r.address).take u.length = u

/-- The words of every record stand at its address. -/
theorem holds_of_code (h : code rs = .ok ws) (hm : ∀ r ∈ rs, r.IsMeasured)
    (hplaced : Layout.IsPlaced 0 rs) {i : Nat} {r : Record} (hr : rs[i]? = some r) :
    ∃ u, Holds ws r u := by
  have hsplit := Traversal.eq_take_append_cons hr
  have hoffset : r.offset = ((rs.take i).map Record.byteLength).sum := by
    simpa using hplaced.offset_eq hr
  rw [hsplit] at h
  -- The code splits at the record, and its front is as long as the lengths before it say.
  obtain ⟨front, back, hfront, hback, rfl⟩ := code_append_eq_ok.1 h
  obtain ⟨u, v, hu, -, rfl⟩ := code_cons_eq_ok.1 hback
  have hlength := length_of_code hfront fun r hr => hm r (List.mem_of_mem_take hr)
  have haddress : r.address = front.length := by
    rw [Record.address, hoffset, ← hlength]
    omega
  refine ⟨u, hu, by omega, ?_⟩
  rw [haddress, List.drop_left, List.take_left]

namespace Holds

variable {r : Record} {u : List Word}

/-- A number that is an operand stands in the code, after the head of its record. -/
theorem getElem?_operand (h : Holds ws r u) {j : Nat} {value : Int}
    (hoperand : r.operands[j]? = some (.resolved value)) :
    ws[r.address + (r.body.headWords.length + j)]? = some (.ofValue value) ∧
      Word.fits value = true := by
  obtain ⟨word, hword, hvalue⟩ := Record.getElem?_of_words h.words hoperand
  obtain ⟨hfits, rfl⟩ := Operand.word_resolved_eq_ok hvalue
  have hlt : r.body.headWords.length + j < u.length := (List.getElem?_eq_some_iff.1 hword).1
  exact ⟨(Traversal.getElem?_of_slice h.slice hlt).trans hword, hfits⟩

end Holds

/-- The image with the given entry and code. -/
def ofCode (entry : Word) (code : List Word) : List Word :=
  entry :: List.replicate (headerLength - 1) 0 ++ code

section

variable (entry : Word) (code : List Word)

@[simp] theorem length_ofCode : (ofCode entry code).length = 8 + code.length := by
  simp [ofCode, headerLength]
  omega

theorem getElem?_ofCode_header {i : Nat} (h1 : 1 ≤ i) (h8 : i < 8) :
    (ofCode entry code)[i]? = some 0 := by
  obtain ⟨i, rfl⟩ := Nat.exists_eq_add_of_le' h1
  have hi : i < (List.replicate (headerLength - 1) (0 : Word)).length := by
    rw [List.length_replicate]
    exact Nat.lt_of_succ_lt_succ h8
  rw [ofCode, List.cons_append, List.getElem?_cons_succ, List.getElem?_append_left hi,
    List.getElem?_replicate_of_lt (by simpa using hi)]

/-- The code stands behind the header. -/
@[simp] theorem drop_ofCode (k : Nat) : (ofCode entry code).drop (8 + k) = code.drop k := by
  rw [← List.drop_drop]
  rfl

@[simp] theorem getElem?_ofCode (k : Nat) : (ofCode entry code)[8 + k]? = code[k]? := by
  rw [ofCode, List.getElem?_append_right (Nat.le_add_right 8 k)]
  exact congrArg (code[·]?) (Nat.add_sub_cancel_left 8 k)

end

theorem ofRecords_eq_ok {labels : LabelTable} {w : List Word} :
    ofRecords rs rs' labels = .ok w ↔ ∃ entry ws, entryPoint rs labels = .ok entry ∧
      code (rs ++ rs') = .ok ws ∧ w = ofCode entry ws := by
  simp only [ofRecords, Traversal.bind_eq_ok]
  constructor
  · rintro ⟨entry, hentry, ws, hws, h⟩
    exact ⟨entry, ws, hentry, hws, (Except.ok.inj h).symm⟩
  · rintro ⟨entry, ws, hentry, hws, rfl⟩
    exact ⟨entry, hentry, ws, hws, rfl⟩

theorem entryPoint_of_unlabelled {labels : LabelTable} (h : rs.head?.bind (·.label) = none) :
    entryPoint rs labels = .ok 0 := by
  rw [entryPoint, h]

/-- The entry is missing only if the first label has no address of a word. -/
theorem exists_label_of_entryPoint_eq_error {labels : LabelTable} {e : EncodingError}
    (h : entryPoint rs labels = .error e) :
    ∃ name, rs.head?.bind (·.label) = some name ∧ e = .noEntryPoint name := by
  rw [entryPoint] at h
  split at h
  · cases h
  · rename_i name hname
    refine ⟨name, hname, ?_⟩
    split at h
    · split at h
      · cases h
      · exact (Except.error.inj h).symm
    · exact (Except.error.inj h).symm

/-- The entry is the only thing that an image can lack besides the words of a record. -/
theorem entryPoint_eq_error {labels : LabelTable} {e : EncodingError}
    (h : entryPoint rs labels = .error e) : ∃ name, e = .noEntryPoint name :=
  (exists_label_of_entryPoint_eq_error h).imp fun _ hname => hname.2

theorem exists_of_code_eq_error {e : EncodingError} (h : code rs = .error e) :
    ∃ r ∈ rs, ∃ operand ∈ r.operands, operand.word r.line = .error e := by
  have hwords : rs.mapM Record.words = .error e := by
    cases hwords : rs.mapM Record.words with
    | error e' =>
      rw [code, hwords] at h
      cases h
      rfl
    | ok ws =>
      rw [code, hwords] at h
      cases h
  obtain ⟨r, hr, herror⟩ := Traversal.exists_of_mapM_eq_error hwords
  rw [Record.words_eq] at herror
  cases hoperands : r.operands.mapM (Operand.word r.line) with
  | error e' =>
    rw [hoperands] at herror
    cases herror
    exact ⟨r, hr, Traversal.exists_of_mapM_eq_error hoperands⟩
  | ok us =>
    rw [hoperands] at herror
    cases herror

/-- An image is missing because of its entry or because of an operand. -/
theorem ofRecords_eq_error {labels : LabelTable} {e : EncodingError}
    (h : ofRecords rs rs' labels = .error e) :
    entryPoint rs labels = .error e ∨
      ∃ r ∈ rs ++ rs', ∃ operand ∈ r.operands, operand.word r.line = .error e := by
  rw [ofRecords] at h
  cases hentry : entryPoint rs labels with
  | error e' =>
    rw [hentry] at h
    cases h
    exact .inl rfl
  | ok entry =>
    cases hcode : code (rs ++ rs') with
    | error e' =>
      rw [hentry, hcode] at h
      cases h
      exact .inr (exists_of_code_eq_error hcode)
    | ok ws =>
      rw [hentry, hcode] at h
      cases h

/-- The entry of a program that begins with a label is the address of that label. -/
theorem address?_of_entryPoint {labels : LabelTable} {entry : Word} {name : String}
    (hname : rs.head?.bind (·.label) = some name) (h : entryPoint rs labels = .ok entry) :
    labels.address? name 1 = some entry.toNat := by
  rw [entryPoint, hname] at h
  dsimp only at h
  split at h
  · rename_i address haddress
    split at h
    · rename_i hlt
      cases h
      rw [haddress, UInt16.toNat_ofNat', Nat.mod_eq_of_lt hlt]
    · cases h
  · cases h

end Image

end Comet
