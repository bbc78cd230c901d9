import Comet.Proofs.EntryPoint

/-!
# Scopes and images

With scoping every subroutine has labels of its own, and without it all labels of a
program are declared together. The two ways of assembling a program use different keys
for the same labels and look names up differently. A program that can be assembled in
both ways has the same image all the same.

What carries the argument is that without scoping no name may be declared twice. So a
name that denotes a record in some scope denotes the same record when all scopes are one
(`Denotes.flat`), and then the addresses, the words of every record and the entry agree.
-/

namespace Comet

namespace Body

theorem mapOperands_congr {f g : Operand → Operand} {b : Body}
    (h : ∀ operand ∈ b.operands, f operand = g operand) : b.mapOperands f = b.mapOperands g := by
  cases b with
  | operation code r1 r2 adr =>
    cases adr with
    | none => rfl
    | some adr => simp [mapOperands, h adr (by simp [operands])]
  | transfer code buffer length =>
    simp [mapOperands, h buffer (by simp [operands]), h length (by simp [operands])]
  | data value => simp [mapOperands, h value (by simp [operands])]
  | start target => rfl
  | finish => rfl
  | labelOnly => rfl

end Body

/-- The words of a record follow from its body. The line is named in errors only. -/
theorem Record.words_congr {r q : Record} (hbody : r.body = q.body) (hline : r.line = q.line) :
    r.words = q.words := by
  rw [words_eq, words_eq, operands, operands, hbody, hline]

/-- The code of records follows from the words of each of them. -/
theorem Image.code_congr {rs rs' : List Record} (h : rs.map Record.words = rs'.map Record.words) :
    code rs = code rs' := by
  have hwords : rs.mapM Record.words = rs'.mapM Record.words := by
    have hmap (rs : List Record) : rs.mapM Record.words = (rs.map Record.words).mapM id := by
      simp [List.mapM_map]
    rw [hmap, hmap, h]
  rw [code, code, hwords]

namespace Assembly

variable {rs : List Record} {name : String}

/-- What a name denotes in its scope it denotes in the program as a whole, if no label of
the program is declared twice. -/
theorem Denotes.flat (h : WellDeclared false rs) {scope k : Nat}
    (hk : Denotes true rs name scope k) : Denotes false rs name 1 k := by
  cases hk with
  | redirected start entry => exact .redirected start entry rfl
  | inScope noStart label => exact .inScope noStart label rfl
  | global _ _ start label body => exact h.denotes_start start label body

section

variable (hflat : WellDeclared false rs) (hscoped : WellDeclared true rs)
  (hrs : ∀ r ∈ rs, r.WellFormed)
include hflat hscoped hrs

/-- So a label has the same address in both tables. -/
theorem address?_flat (hname : IsLabelName name) {scope address : Nat}
    (haddress : (labels true rs).address? name scope = some address) :
    (labels false rs).address? name 1 = some address := by
  obtain ⟨k, r, hr, hdenotes, rfl⟩ := hscoped.exists_denoted hrs hname haddress
  rw [getElem?_layout, Option.map_eq_some_iff] at hr
  obtain ⟨p, -, rfl⟩ := hr
  exact hflat.address?_eq_addressAt hrs (hdenotes.flat hflat)

end

section

variable (hflat : ErrorFree false rs) (hscoped : ErrorFree true rs) (hrs : ∀ r ∈ rs, r.WellFormed)
include hflat hscoped hrs

/-- The names of an operand and the names of literals stand for the same addresses. -/
theorem resolve_flat {i : Nat} {p : Record} (hp : rs[i]? = some p) {operand : Operand}
    (hoperand : operand ∈ (placed true rs i p).operands) :
    operand.resolve .exact (labels true rs) (scopeAt true rs i) =
      operand.resolve .exact (labels false rs) 1 := by
  cases operand with
  | resolved value => rfl
  | literal l span => rfl
  | symbol name span =>
    obtain ⟨address, haddress, -⟩ := hscoped.exists_address (placed_mem_layout hp) hoperand
    have haddress' : (labels false rs).address? name 1 = some address := by
      rcases mem_operands_placed hp hoperand with hsource | ⟨k, o, _, ho, ⟨⟩⟩
      · have hname : IsLabelName name := (hrs p (List.mem_of_getElem? hp)).operands _ hsource
        exact address?_flat hflat.toWellDeclared hscoped.toWellDeclared hrs hname haddress
      · rw [hscoped.address?_literalName hrs ho] at haddress
        rw [hflat.address?_literalName hrs ho]
        exact haddress
    have hscope : (placed true rs i p).scope = scopeAt true rs i := rfl
    rw [hscope] at haddress
    rw [Operand.resolve, Operand.resolve, haddress, haddress']

theorem words_flat {i : Nat} {p : Record} (hp : rs[i]? = some p) :
    ((placed true rs i p).resolve .exact (labels true rs)).words =
      ((placed false rs i p).resolve .exact (labels false rs)).words := by
  apply Record.words_congr
  · exact Body.mapOperands_congr fun operand hoperand => resolve_flat hflat hscoped hrs hp hoperand
  · rfl

theorem map_words_flat :
    (resolvedRecords true rs).map Record.words = (resolvedRecords false rs).map Record.words := by
  apply List.ext_getElem?
  intro i
  rw [resolvedRecords, resolvedRecords, List.getElem?_map, List.getElem?_map, List.getElem?_map,
    List.getElem?_map, getElem?_layout, getElem?_layout]
  cases hp : rs[i]? with
  | none => rfl
  | some p => exact congrArg some (words_flat hflat hscoped hrs hp)

/-- The code of a program does not depend on scoping. -/
theorem code_flat :
    Image.code (resolvedRecords true rs ++ (layout true rs).generated) =
      Image.code (resolvedRecords false rs ++ (layout false rs).generated) := by
  apply Image.code_congr
  rw [List.map_append, List.map_append, map_words_flat hflat hscoped hrs]
  rfl

/-- Nor does the entry, which is looked up in the first scope either way. -/
theorem entryPoint_flat :
    Image.entryPoint (resolvedRecords true rs) (labels true rs) =
      Image.entryPoint (resolvedRecords false rs) (labels false rs) := by
  cases hlabel : rs.head?.bind (·.label) with
  | none =>
    rw [Image.entryPoint_of_unlabelled ((label_head?_resolvedRecords true rs).trans hlabel),
      Image.entryPoint_of_unlabelled ((label_head?_resolvedRecords false rs).trans hlabel)]
  | some name =>
    obtain ⟨p, hp, hname⟩ := Option.bind_eq_some_iff.1 hlabel
    rw [List.head?_eq_getElem?] at hp
    obtain ⟨k, hk⟩ := hscoped.exists_denotes_first hrs hp hname
    rw [hscoped.entryPoint_of_denotes hrs hp hname hk,
      hflat.entryPoint_of_denotes hrs hp hname (hk.flat hflat.toWellDeclared)]

end

/-- A program that can be assembled with and without scoping has one image. -/
theorem words_eq_of_scoping {gr8 : Bool} {lines : List String} {c c' : Compilation}
    {w w' : List Word} (hc : compile { gr8, scoping := false } lines = .ok c)
    (hw : c.words = some w) (hc' : compile { gr8, scoping := true } lines = .ok c')
    (hw' : c'.words = some w') : w = w' := by
  obtain ⟨reading, hread, -⟩ := exists_readLines gr8 lines
  obtain ⟨entry, code, h, rfl⟩ := assembled_of_compile hread hc hw
  obtain ⟨entry', code', h', rfl⟩ := assembled_of_compile hread hc' hw'
  have hentry : entry' = entry := by
    have hentries := entryPoint_flat h.errorFree h'.errorFree h.wellFormed
    rw [resolvedRecords, resolvedRecords, h.entryPoint_eq, h'.entryPoint_eq] at hentries
    exact Except.ok.inj hentries
  have hcode : code' = code := by
    have hcodes := code_flat h.errorFree h'.errorFree h.wellFormed
    rw [resolvedRecords, resolvedRecords, ← h.records_eq, ← h'.records_eq, h.code_eq,
      h'.code_eq] at hcodes
    exact Except.ok.inj hcodes
  rw [hentry, hcode]

/-- Two subroutines whose labels all differ, the first of which has an entry and a literal. -/
def distinctLabels : List String :=
  ["MAIN START BEGIN", "BUF DS 1", "BEGIN LD GR1,=7", " CALL SUB", " RET", " END", "SUB START",
    "LOOP ST GR1,TEMP", " JUMP LOOP", "TEMP DS 1", " END"]

/-- The image that they have either way. -/
def distinctLabelsImage : List Word :=
  [1, 0, 0, 0, 0, 0, 0, 0, 0, 0x1010, 11, 0x8000, 6, 0x8100, 0x1110, 10, 0x6400, 6, 0, 7]

theorem exists_compile_distinctLabels (scoping : Bool) :
    ∃ c, compile { scoping } distinctLabels = .ok c ∧ c.words = some distinctLabelsImage := by
  have hwords : (compile { scoping } distinctLabels).toOption.bind (·.words) =
      some distinctLabelsImage := by
    cases scoping <;> decide +kernel
  obtain ⟨c, hc, hw⟩ := Option.bind_eq_some_iff.1 hwords
  exact ⟨c, Traversal.toOption_eq_some.1 hc, hw⟩

theorem words_eq_distinctLabels :
    ∃ c c' w w', compile { scoping := false } distinctLabels = .ok c ∧ c.words = some w ∧
      compile { scoping := true } distinctLabels = .ok c' ∧ c'.words = some w' ∧
      w = distinctLabelsImage ∧ w = w' := by
  obtain ⟨c, hc, hw⟩ := exists_compile_distinctLabels false
  obtain ⟨c', hc', hw'⟩ := exists_compile_distinctLabels true
  exact ⟨c, c', _, _, hc, hw, hc', hw', rfl, words_eq_of_scoping hc hw hc' hw'⟩

end Assembly

end Comet
