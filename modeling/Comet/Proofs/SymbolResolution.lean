import Comet.Proofs.ImageLayout

/-!
# The words of names

Where the source text has a name as an operand, the image has the address of the record
that the name denotes. There is exactly one such record, whether it stands before or
behind the use, in the same subroutine or in another one.
-/

namespace Comet.Assembly

/-- The word of a name in an image is the address of the one record that the name denotes. -/
theorem symbol_words_of_compile {options : Options} {lines : List String} {c : Compilation}
    {w : List Word} (hc : compile options lines = .ok c) (hw : c.words = some w) :
    ∃ reading, readLines options.gr8 lines = .ok reading ∧
      ∀ i j p name span, reading.records[i]? = some p →
        p.operands[j]? = some (.symbol name span) →
        ∃ r k target word, c.records[i]? = some r ∧ c.records[k]? = some target ∧
          Denotes options.scoping reading.records name
            (scopeAt options.scoping reading.records i) k ∧
          (∀ k', Denotes options.scoping reading.records name
            (scopeAt options.scoping reading.records i) k' → k' = k) ∧
          w[8 + (r.address + (p.body.headWords.length + j))]? = some word ∧
          word.toNat = target.address := by
  obtain ⟨reading, hread, hrs⟩ := exists_readLines options.gr8 lines
  obtain ⟨entry, code, h, rfl⟩ := assembled_of_compile hread hc hw
  refine ⟨reading, hread, fun i j p name span hp hoperand => ?_⟩
  have hnamed : (placed options.scoping reading.records i p).operands[j]? =
      some (.symbol name span) := by
    rw [getElem?_operands_placed, hoperand]
    rfl
  have hname : IsLabelName name :=
    (hrs p (List.mem_of_getElem? hp)).operands _ (List.mem_of_getElem? hoperand)
  obtain ⟨r, word, hr, hword, haddress⟩ := h.exists_address_word hp hnamed
  obtain ⟨k, target, htarget, hdenotes, heq⟩ := h.errorFree.exists_denoted hrs hname haddress
  refine ⟨r, k, _, word, hr, h.getElem?_of_layout htarget, hdenotes, ?_, ?_, heq.symm⟩
  · exact fun k' hk' => h.errorFree.denotes_unique hk' hdenotes
  · rw [Image.getElem?_ofCode]
    exact hword

/-- The second subroutine calls the first one, whose label stands for its entry. -/
theorem symbol_words_twoSubroutines :
    ∃ c reading p span, compile { scoping := true } twoSubroutines = .ok c ∧
      c.words = some twoSubroutinesImage ∧ readLines false twoSubroutines = .ok reading ∧
      reading.records[12]? = some p ∧ p.operands[0]? = some (.symbol "MAIN" span) ∧
      ∃ r k target word, c.records[12]? = some r ∧ c.records[k]? = some target ∧
        Denotes true reading.records "MAIN" (scopeAt true reading.records 12) k ∧
        twoSubroutinesImage[8 + (r.address + (p.body.headWords.length + 0))]? = some word ∧
        word.toNat = target.address := by
  obtain ⟨c, hc, hw⟩ := exists_compile_twoSubroutines
  obtain ⟨reading, hread, hsymbols⟩ := symbol_words_of_compile hc hw
  have hcall : ((readLines false twoSubroutines).toOption.bind (·.records[12]?)).bind
      (·.operands[0]?) = some (.symbol "MAIN" ⟨6, 10⟩) := by decide +kernel
  replace hread : readLines false twoSubroutines = .ok reading := hread
  rw [hread] at hcall
  obtain ⟨p, hp, hoperand⟩ := Option.bind_eq_some_iff.1 hcall
  obtain ⟨r, k, target, word, hr, htarget, hdenotes, -, hword, haddress⟩ :=
    hsymbols 12 0 p "MAIN" _ hp hoperand
  exact ⟨c, reading, p, _, hc, hw, hread, hp, hoperand, r, k, target, word, hr, htarget, hdenotes,
    hword, haddress⟩

end Comet.Assembly
