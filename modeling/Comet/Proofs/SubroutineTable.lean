import Comet.Proofs.EntryPoint

/-!
# The table of subroutines

The debug information lists every subroutine at the address at which it is entered. There
are two ways to find that address. A call looks up the label of the subroutine, which is
redirected to the entry in the subroutine's own scope. The table looks up the name of the
entry itself, and such a lookup prefers redirections to labels of the scope.

The two ways agree unless the name of the entry is also the label of another start that
names an entry. That start then diverts the lookup, and the subroutine is listed where the
other one is entered (`subroutine_of_compile`). A label and a start of the same name stand
in different scopes, so this takes scoping.
-/

namespace Comet

namespace AddressTable

/-- Setting a line adds its address to the table. -/
theorem mem_keys_insert {a address line : Nat} {t : AddressTable} :
    a ∈ (insert address line t).map Prod.fst ↔ a = address ∨ a ∈ t.map Prod.fst := by
  induction t with
  | nil => simp [insert]
  | cons p t ih =>
    obtain ⟨b, l⟩ := p
    rw [insert]
    split
    · simp
    · split
      · rename_i heq
        subst heq
        simp
      · rw [List.map_cons, List.mem_cons, ih, List.map_cons, List.mem_cons, or_left_comm]

/-- The addresses of a table are those that were set, whatever replaced their lines. -/
theorem mem_keys_ofPairs {a : Nat} {pairs : List (Nat × Nat)} :
    a ∈ (ofPairs pairs).map Prod.fst ↔ a ∈ pairs.map Prod.fst := by
  have hfoldl (t : AddressTable) :
      a ∈ (pairs.foldl (fun table p => insert p.1 p.2 table) t).map Prod.fst ↔
        a ∈ t.map Prod.fst ∨ a ∈ pairs.map Prod.fst := by
    induction pairs generalizing t with
    | nil => simp
    | cons p pairs ih =>
      rw [List.foldl_cons, ih, mem_keys_insert, List.map_cons, List.mem_cons, or_assoc,
        or_left_comm]
  simpa [ofPairs] using hfoldl []

end AddressTable

theorem Record.isStart_of_redirection {r : Record} {target : String}
    (h : r.declaration = .redirection target) : r.IsStart :=
  declaration_ne_inScope.1 (by simp [h])

/-- The name of the entry of `r` is also the label of `q`, which names an entry too. -/
def Record.Diverts (q r : Record) : Prop :=
  ∃ target target', r.declaration = .redirection target ∧ q.label = some target ∧
    q.declaration = .redirection target'

namespace Assembly

/-- The address that a call of the label of a record reaches, from the scope of the record. -/
def Compilation.calledAddress? (c : Compilation) (r : Record) : Option Nat :=
  r.label.bind fun name => c.labels.address? name r.scope

variable {scoping : Bool} {rs : List Record}

/-- The table has an address for every start. -/
theorem mem_subroutines_of_entryAddress? {c : Compilation} {r : Record} (hr : r ∈ c.records)
    {address line : Nat} (h : DebugInfo.entryAddress? c.labels r = some (address, line)) :
    address ∈ c.debugInfo.subroutines.map Prod.fst := by
  rw [Compilation.debugInfo, DebugInfo.ofRecords, AddressTable.mem_keys_ofPairs]
  exact List.mem_map.2 ⟨(address, line), List.mem_filterMap.2 ⟨r, hr, h⟩, rfl⟩

/-- A redirected name denotes the same record in every scope. -/
theorem Denotes.of_redirection {i k : Nat} {name target : String} {scope : Nat}
    (hi : DeclaresAt rs i name (.redirection target)) (hk : Denotes scoping rs name scope k)
    (scope' : Nat) : Denotes scoping rs name scope' k := by
  cases hk with
  | redirected start entry same => exact .redirected start entry same
  | inScope noStart => exact absurd hi (noStart _ _)
  | global noStart => exact absurd hi (noStart _ _)

namespace Assembled

variable {records : List Record} {entry : Word} {code : List Word}
  (h : Assembled scoping rs records entry code)
include h

/-- Only the source text starts subroutines. -/
theorem exists_of_isStart {r : Record} (hr : r ∈ records) (hstart : r.IsStart) :
    ∃ i p, rs[i]? = some p ∧ r = (placed scoping rs i p).resolve .exact (labels scoping rs) := by
  obtain ⟨i, hi⟩ := List.mem_iff_getElem?.1 hr
  rcases h.getElem?_cases hi with ⟨p, hp, heq⟩ | hgenerated
  · exact ⟨i, p, hp, heq⟩
  · obtain ⟨value, -, hdata⟩ := exists_value_of_mem_generated hgenerated
    obtain ⟨target, htarget⟩ := hstart
    rw [hdata] at htarget
    cases htarget

/-- A labelled start with an entry redirects its label in the source text. -/
theorem declaresAt_of_redirection {q : Record} (hq : q ∈ records) {name target : String}
    (hname : q.label = some name) (hd : q.declaration = .redirection target) :
    ∃ j, DeclaresAt rs j name (.redirection target) ∧ q.scope = scopeAt scoping rs j := by
  obtain ⟨j, p, hp, rfl⟩ := h.exists_of_isStart hq (Record.isStart_of_redirection hd)
  obtain ⟨span, hbody⟩ := Record.declaration_eq_redirection.1 hd
  refine ⟨j, ⟨p, hp, hname, ?_⟩, rfl⟩
  exact Record.declaration_eq_redirection.2 ⟨span, body_eq_start.1 hbody⟩

/-- A start that diverts another one stands in another scope, because the entry is a label
of the scope of the latter. -/
theorem scope_ne_of_diverts {q r : Record} (hq : q ∈ records) (hr : r ∈ records)
    (hdiverts : q.Diverts r) : q.scope ≠ r.scope := by
  obtain ⟨target, target', hd, hlabel, hd'⟩ := hdiverts
  obtain ⟨i, p, hp, rfl⟩ := h.exists_of_isStart hr (Record.isStart_of_redirection hd)
  obtain ⟨span, hbody⟩ := Record.declaration_eq_redirection.1 hd
  have hdp : p.declaration = .redirection target :=
    Record.declaration_eq_redirection.2 ⟨span, body_eq_start.1 hbody⟩
  obtain ⟨k, hk, hscope⟩ := h.errorFree.exists_entryAt hp hdp
  obtain ⟨j, hj, hscope'⟩ := h.declaresAt_of_redirection hq hlabel hd'
  intro heq
  have hsame : scopeAt scoping rs j = scopeAt scoping rs k :=
    hscope'.symm.trans (heq.trans hscope.symm)
  obtain rfl := h.errorFree.declaresAt_unique hj hk (.inl hsame)
  cases hj.declaration_eq hk

/-- What a call of a labelled start reaches, and where the table lists it. -/
theorem exists_entry_of_start {r : Record} (hr : r ∈ records) {name : String}
    (hname : r.label = some name) (hstart : r.IsStart) :
    ∃ address, (labels scoping rs).address? name r.scope = some address ∧
      ((∀ q ∈ records, ¬ q.Diverts r) →
        DebugInfo.entryAddress? (labels scoping rs) r = some (address, r.line)) := by
  obtain ⟨i, p, hp, rfl⟩ := h.exists_of_isStart hr hstart
  obtain ⟨target, hbody⟩ := hstart
  have hbody' : p.body = .start target := body_eq_start.1 hbody
  cases target with
  | none =>
    -- The label of a start without an entry denotes the start itself.
    have hdenotes := h.errorFree.denotes_start hp hname hbody'
    refine ⟨addressAt rs i, h.errorFree.address?_eq_addressAt h.wellFormed hdenotes, fun _ => ?_⟩
    rw [DebugInfo.entryAddress?, hbody]
    rfl
  | some target =>
    obtain ⟨entryName, span, rfl, -⟩ :=
      (h.wellFormed p (List.mem_of_getElem? hp)).entry target hbody'
    have hd : p.declaration = .redirection entryName :=
      Record.declaration_eq_redirection.2 ⟨span, hbody'⟩
    obtain ⟨k, hk, hscope⟩ := h.errorFree.exists_entryAt hp hd
    have hdenotes : Denotes scoping rs name (scopeAt scoping rs i) k :=
      .redirected ⟨p, hp, hname, hd⟩ hk hscope
    refine ⟨addressAt rs k, h.errorFree.address?_eq_addressAt h.wellFormed hdenotes, ?_⟩
    intro hnone
    have hnoStart : ∀ j target, ¬ DeclaresAt rs j entryName (.redirection target) := by
      rintro j target' ⟨q, hq, hlabel, hdq⟩
      obtain ⟨span', hbodyq⟩ := Record.declaration_eq_redirection.1 hdq
      apply hnone _ (List.mem_of_getElem? (h.getElem?_records hq))
      exact ⟨entryName, target', Record.declaration_eq_redirection.2 ⟨span, hbody⟩, hlabel,
        Record.declaration_eq_redirection.2 ⟨span', body_eq_start.2 hbodyq⟩⟩
    have hentry : Denotes scoping rs entryName (scopeAt scoping rs i) k :=
      .inScope hnoStart hk hscope
    rw [DebugInfo.entryAddress?, hbody]
    exact congrArg (Option.map _) (h.errorFree.address?_eq_addressAt h.wellFormed hentry)

/-- A start that is diverted is listed where the other one is entered. -/
theorem entryAddress?_of_diverts {q r : Record} (hq : q ∈ records) (hdiverts : q.Diverts r)
    {address : Nat} {name : String} (hname : q.label = some name)
    (haddress : (labels scoping rs).address? name q.scope = some address) :
    DebugInfo.entryAddress? (labels scoping rs) r = some (address, r.line) := by
  obtain ⟨target, target', hd, hlabel, hd'⟩ := hdiverts
  cases hname.symm.trans hlabel
  obtain ⟨span, hbody⟩ := Record.declaration_eq_redirection.1 hd
  obtain ⟨j, hj, -⟩ := h.declaresAt_of_redirection hq hname hd'
  have hlabelName : IsLabelName name := by
    obtain ⟨p, hp, hlabel, -⟩ := id hj
    exact (h.wellFormed p (List.mem_of_getElem? hp)).label name hlabel
  obtain ⟨k, t, ht, hdenotes, rfl⟩ := h.errorFree.exists_denoted h.wellFormed hlabelName haddress
  have hdenotes' := hdenotes.of_redirection hj r.scope
  rw [DebugInfo.entryAddress?, hbody]
  exact congrArg (Option.map _) (h.errorFree.address?_of_denotes h.wellFormed hdenotes' ht)

/-- Without scoping nothing diverts. -/
theorem not_diverts_of_flat (hflat : scoping = false) {q r : Record} (hq : q ∈ records)
    (hr : r ∈ records) : ¬ q.Diverts r := by
  subst hflat
  intro hdiverts
  apply h.scope_ne_of_diverts hq hr hdiverts
  obtain ⟨target, target', hd, -, hd'⟩ := hdiverts
  obtain ⟨i, p, -, rfl⟩ := h.exists_of_isStart hr (Record.isStart_of_redirection hd)
  obtain ⟨j, p', -, rfl⟩ := h.exists_of_isStart hq (Record.isStart_of_redirection hd')
  rfl

end Assembled

/-- A labelled start of an assembled program is listed where a call of its label goes,
exactly if no start diverts it to another address. Diverting takes two scopes. -/
theorem subroutine_of_compile {options : Options} {lines : List String} {c : Compilation}
    {w : List Word} (hc : compile options lines = .ok c) (hw : c.words = some w) {r : Record}
    (hr : r ∈ c.records) {name : String} (hname : r.label = some name) (hstart : r.IsStart) :
    ∃ address, c.labels.address? name r.scope = some address ∧
      (DebugInfo.entryAddress? c.labels r = some (address, r.line) ↔
        ∀ q ∈ c.records, q.Diverts r → c.calledAddress? q = some address) ∧
      ((∀ q ∈ c.records, q.Diverts r → c.calledAddress? q = some address) →
        address ∈ c.debugInfo.subroutines.map Prod.fst) ∧
      (options.scoping = false → address ∈ c.debugInfo.subroutines.map Prod.fst) := by
  obtain ⟨reading, hread, -⟩ := exists_readLines options.gr8 lines
  obtain ⟨entry, code, h, -⟩ := assembled_of_compile hread hc hw
  obtain ⟨-, -, hlabels, -⟩ := compile_eq_ok hread hc hw
  obtain ⟨address, hcall, hlisted⟩ := h.exists_entry_of_start hr hname hstart
  have hdiverted {q : Record} (hq : q ∈ c.records) (hdiverts : q.Diverts r) {called : Nat}
      (hcalled : c.calledAddress? q = some called) :
      DebugInfo.entryAddress? c.labels r = some (called, r.line) := by
    obtain ⟨label, hlabel, hlookup⟩ := Option.bind_eq_some_iff.1 hcalled
    rw [hlabels] at hlookup ⊢
    exact h.entryAddress?_of_diverts hq hdiverts hlabel hlookup
  have hrow : DebugInfo.entryAddress? c.labels r = some (address, r.line) ↔
      ∀ q ∈ c.records, q.Diverts r → c.calledAddress? q = some address := by
    constructor
    · intro hentry q hq hdiverts
      obtain ⟨target, target', -, hlabel, hd'⟩ := id hdiverts
      obtain ⟨called, hcalled, -⟩ := h.exists_entry_of_start hq hlabel
        (Record.isStart_of_redirection hd')
      have hcalled' : c.calledAddress? q = some called := by
        rw [Compilation.calledAddress?, hlabel, hlabels]
        exact hcalled
      cases hentry.symm.trans (hdiverted hq hdiverts hcalled')
      exact hcalled'
    · intro hsame
      by_cases hany : ∃ q ∈ c.records, q.Diverts r
      · obtain ⟨q, hq, hdiverts⟩ := hany
        exact hdiverted hq hdiverts (hsame q hq hdiverts)
      · rw [hlabels]
        exact hlisted fun q hq hdiverts => hany ⟨q, hq, hdiverts⟩
  refine ⟨address, hlabels ▸ hcall, hrow, fun hsame => ?_, fun hflat => ?_⟩
  · exact mem_subroutines_of_entryAddress? hr (hrow.2 hsame)
  · apply mem_subroutines_of_entryAddress? hr (hrow.2 _)
    intro q hq hdiverts
    exact absurd hdiverts (h.not_diverts_of_flat hflat hq hr)

theorem subroutine_twoSubroutines :
    ∃ c w r, compile { scoping := true } twoSubroutines = .ok c ∧ c.words = some w ∧
      r ∈ c.records ∧ r.label = some "MAIN" ∧ r.IsStart ∧
      c.labels.address? "MAIN" r.scope = some 2 ∧ 2 ∈ c.debugInfo.subroutines.map Prod.fst := by
  have hstart : ∀ c ∈ (compile { scoping := true } twoSubroutines).toOption,
      ∃ r ∈ c.records, r.label = some "MAIN" ∧
        r.body = .start (some (.symbol "BEGIN" ⟨11, 16⟩)) ∧
        c.labels.address? "MAIN" r.scope = some 2 ∧
        ∀ q ∈ c.records, q.label = some "BEGIN" → q.declaration = .inScope := by decide +kernel
  obtain ⟨c, hc, hw⟩ := exists_compile_twoSubroutines
  obtain ⟨r, hr, hname, hbody, haddress, hentry⟩ := hstart c (Traversal.toOption_eq_some.2 hc)
  refine ⟨c, _, r, hc, hw, hr, hname, ⟨_, hbody⟩, haddress, ?_⟩
  obtain ⟨address, hcall, -, hlisted, -⟩ := subroutine_of_compile hc hw hr hname ⟨_, hbody⟩
  cases haddress.symm.trans hcall
  apply hlisted
  rintro q hq ⟨target, target', hd, hlabel, hd'⟩
  obtain ⟨span, hbody'⟩ := Record.declaration_eq_redirection.1 hd
  cases hbody.symm.trans hbody'
  cases hd'.symm.trans (hentry q hq hlabel)

/-- The name of the entry of the first subroutine is the label of the second one, which has
an entry, too. -/
def divertedEntry : List String :=
  ["MAIN START LOOP", "LOOP RET", " END", "LOOP START FIRST", "FIRST NOP", " RET", " END"]

/-- A call of the first subroutine goes to address 0, but both subroutines are listed at
address 1. -/
theorem unlisted_divertedEntry :
    ∃ c r, compile { scoping := true } divertedEntry = .ok c ∧
      c.words = some [0, 0, 0, 0, 0, 0, 0, 0, 0x8100, 0, 0x8100] ∧ r ∈ c.records ∧
      r.label = some "MAIN" ∧ r.IsStart ∧ c.labels.address? "MAIN" r.scope = some 0 ∧
      c.debugInfo.subroutines = [(1, 3)] := by
  have hfound : ∃ c ∈ (compile { scoping := true } divertedEntry).toOption, ∃ r ∈ c.records,
      c.words = some [0, 0, 0, 0, 0, 0, 0, 0, 0x8100, 0, 0x8100] ∧ r.label = some "MAIN" ∧
      r.body = .start (some (.symbol "LOOP" ⟨11, 15⟩)) ∧
      c.labels.address? "MAIN" r.scope = some 0 ∧ c.debugInfo.subroutines = [(1, 3)] := by
    decide +kernel
  obtain ⟨c, hc, r, hr, hw, hname, hbody, haddress, hlisted⟩ := hfound
  exact ⟨c, r, Traversal.toOption_eq_some.1 hc, hw, hr, hname, ⟨_, hbody⟩, haddress, hlisted⟩

end Assembly

end Comet
