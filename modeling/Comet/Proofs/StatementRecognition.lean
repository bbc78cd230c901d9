import Comet.Proofs.Recognition

/-!
# Reading statements follows the grammar

The shape of an instruction decides what its operands are read from, so there is one
equivalence for each shape. They are put together in `exists_operandList` and
`operands_of_operandList`, which say the same of all instructions in terms of the grammar,
and with the head of a line in `exists_parts` and `statement_of_parts`.
-/

namespace Comet

namespace Statement

namespace Line

variable {gr8 : Bool} (line : Line) {tokens rest : List Token} {token : Token}

/-! ## Shapes -/

section Shapes

variable {m : Mnemonic} {operands : Operands}

theorem operands_eq_ok_of_none (shape : m.shape = .none) :
    line.operands m tokens = .ok (operands, rest) ↔ operands = .none ∧ rest = tokens := by
  rw [Line.operands, shape]
  simp [eq_comm]

theorem operands_eq_ok_of_register (shape : m.shape = .register) :
    line.operands m tokens = .ok (operands, rest) ↔ ∃ space token r,
      tokens = space :: token :: rest ∧ space.kind = .space ∧ token.IsRegister r ∧
        operands = .register r := by
  have hslot : Slot.register.TakesRegister := fun _ => rfl
  rw [Line.operands, shape]
  simp only [Traversal.bind_eq_ok, Prod.exists, line.register_eq_ok hslot]
  constructor
  · rintro ⟨_, hspace, r, _, ⟨token, rfl, register⟩, ⟨⟩⟩
    obtain ⟨-, space, rfl, blank⟩ := line.separator_space_eq_ok.1 hspace
    exact ⟨space, token, r, rfl, blank, register, rfl⟩
  · rintro ⟨space, token, r, rfl, blank, register, rfl⟩
    have hends := endsLine_of_isRegister register
    exact ⟨_, line.separator_space_cons blank hends, r, rest, ⟨token, rfl, register⟩, rfl⟩

theorem operands_eq_ok_of_address (hspelled : AllSpelled gr8 tokens) (shape : m.shape = .address) :
    line.operands m tokens = .ok (operands, rest) ↔ ∃ space token front adr x,
      tokens = space :: token :: (front ++ rest) ∧ space.kind = .space ∧
        token.WritesAddress adr ∧ IsIndex front x ∧ (x = none → atEnd rest = true) ∧
        operands = .address adr x := by
  rw [Line.operands, shape]
  simp only [Traversal.bind_eq_ok, Prod.exists]
  constructor
  · rintro ⟨after, hspace, adr, x, _, hadr, ⟨⟩⟩
    obtain ⟨space, rfl, blank⟩ := line.exists_space_of_separator hspace
    obtain ⟨token, front, rfl, address, index, hstop⟩ :=
      (line.indexedAddress_eq_ok hspelled.tail).1 hadr
    exact ⟨space, token, front, adr, x, rfl, blank, address, index, hstop, rfl⟩
  · rintro ⟨space, token, front, adr, x, rfl, blank, address, index, hstop, rfl⟩
    have hends := endsLine_of_isAddress (isAddress_of_writesAddress address)
    have hadr := (line.indexedAddress_eq_ok hspelled.tail).2
      ⟨token, front, rfl, address, index, hstop⟩
    exact ⟨_, line.separator_space_cons blank hends, adr, x, rest, hadr, rfl⟩

/-- What stands before the second operand of an instruction with a register. -/
theorem firstRegister_eq_ok
    {f : Register × List Token → List Token → Except Stop (Operands × List Token)}
    {result : Operands × List Token} :
    (do
      let tokens ← line.separator .space .firstRegister tokens
      let first ← line.register .firstRegister tokens
      let tokens ← line.separator .comma .address first.2
      f first tokens) = .ok result ↔
    ∃ space first comma r rest, tokens = space :: first :: comma :: rest ∧
      space.kind = .space ∧ first.IsRegister r ∧ comma.kind = .comma ∧
      f (r, comma :: rest) rest = .ok result := by
  have hslot : Slot.firstRegister.TakesRegister := fun _ => rfl
  simp only [Traversal.bind_eq_ok, Prod.exists, line.register_eq_ok hslot,
    line.separator_comma_eq_ok]
  constructor
  · rintro ⟨_, hspace, r, _, ⟨first, rfl, register⟩, rest, ⟨comma, rfl, separator⟩, h⟩
    obtain ⟨-, space, rfl, blank⟩ := line.separator_space_eq_ok.1 hspace
    exact ⟨space, first, comma, r, rest, rfl, blank, register, separator, h⟩
  · rintro ⟨space, first, comma, r, rest, rfl, blank, register, separator, h⟩
    have hends := endsLine_of_isRegister register
    exact ⟨_, line.separator_space_cons blank hends, r, _, ⟨first, rfl, register⟩, rest,
      ⟨comma, rfl, separator⟩, h⟩

/-- A register and an address, with an index register unless the line ends. -/
inductive IsRegisterAddress : List Token → Operands → List Token → Prop
  | mk {space first comma token : Token} {front rest : List Token} {r : Register} {adr : Operand}
      {x : Option Register} (blank : space.kind = .space) (register : first.IsRegister r)
      (separator : comma.kind = .comma) (address : token.WritesAddress adr)
      (index : IsIndex front x) (stop : x = none → atEnd rest = true) :
      IsRegisterAddress (space :: first :: comma :: token :: (front ++ rest))
        (.registerAddress r adr x) rest

theorem operands_eq_ok_of_registerAddress (hspelled : AllSpelled gr8 tokens)
    (shape : m.shape = .registerAddress) :
    line.operands m tokens = .ok (operands, rest) ↔ IsRegisterAddress tokens operands rest := by
  rw [Line.operands, shape]
  constructor
  · intro h
    obtain ⟨space, first, comma, r, after, rfl, blank, register, separator, h⟩ :=
      line.firstRegister_eq_ok.1 h
    obtain ⟨⟨adr, x, _⟩, hadr, ⟨⟩⟩ := Traversal.bind_eq_ok.1 h
    obtain ⟨token, front, rfl, address, index, hstop⟩ :=
      (line.indexedAddress_eq_ok hspelled.tail.tail.tail).1 hadr
    exact .mk blank register separator address index hstop
  · rintro ⟨blank, register, separator, address, index, hstop⟩
    have hadr := (line.indexedAddress_eq_ok hspelled.tail.tail.tail).2
      ⟨_, _, rfl, address, index, hstop⟩
    exact line.firstRegister_eq_ok.2 ⟨_, _, _, _, _, rfl, blank, register, separator,
      Traversal.bind_eq_ok.2 ⟨_, hadr, rfl⟩⟩

/-- What cannot be an address is read as a register. -/
theorem operands_eq_ok_of_registerOrAddress (hspelled : AllSpelled gr8 tokens)
    (shape : m.shape = .registerOrAddress) :
    line.operands m tokens = .ok (operands, rest) ↔ IsRegisterAddress tokens operands rest ∨
      ∃ space first comma second r1 r2, tokens = space :: first :: comma :: second :: rest ∧
        space.kind = .space ∧ first.IsRegister r1 ∧ comma.kind = .comma ∧
        second.IsRegister r2 ∧ operands = .registers r1 r2 := by
  have hslot : Slot.secondRegister.TakesRegister := fun _ => rfl
  rw [Line.operands, shape]
  constructor
  · intro h
    obtain ⟨space, first, comma, r, after, rfl, blank, register, separator, h⟩ :=
      line.firstRegister_eq_ok.1 h
    split at h
    · obtain ⟨⟨adr, x, _⟩, hadr, ⟨⟩⟩ := Traversal.bind_eq_ok.1 h
      obtain ⟨token, front, rfl, address, index, hstop⟩ :=
        (line.indexedAddress_eq_ok hspelled.tail.tail.tail).1 hadr
      exact .inl (.mk blank register separator address index hstop)
    · obtain ⟨⟨r', _⟩, hsecond, ⟨⟩⟩ := Traversal.bind_eq_ok.1 h
      obtain ⟨second, rfl, register'⟩ := (line.register_eq_ok hslot).1 hsecond
      exact .inr ⟨space, first, comma, second, r, r', rfl, blank, register, separator, register',
        rfl⟩
  · rintro (⟨blank, register, separator, address, index, hstop⟩ |
      ⟨space, first, comma, second, r1, r2, rfl, blank, register, separator, register', rfl⟩)
    · have hadr := (line.indexedAddress_eq_ok hspelled.tail.tail.tail).2
        ⟨_, _, rfl, address, index, hstop⟩
      refine line.firstRegister_eq_ok.2 ⟨_, _, _, _, _, rfl, blank, register, separator, ?_⟩
      rw [next_cons, if_pos (isAddress_of_writesAddress address)]
      exact Traversal.bind_eq_ok.2 ⟨_, hadr, rfl⟩
    · have hsecond : line.register .secondRegister (second :: rest) = .ok (r2, rest) :=
        (line.register_eq_ok hslot).2 ⟨second, rfl, register'⟩
      have hkind : ¬ second.kind.isAddress = true := by
        simp [register'.kind, Token.Kind.isAddress]
      refine line.firstRegister_eq_ok.2 ⟨_, _, _, _, _, rfl, blank, register, separator, ?_⟩
      rw [next_cons, if_neg hkind]
      exact Traversal.bind_eq_ok.2 ⟨_, hsecond, rfl⟩

theorem buffer_eq_ok {bufferSlot lengthSlot : Slot} (hbuffer : bufferSlot.TakesAddress)
    (hlength : lengthSlot.TakesAddress) (hspelled : AllSpelled gr8 tokens) :
    line.buffer bufferSlot lengthSlot tokens = .ok (operands, rest) ↔
      ∃ space first comma second adr adr', tokens = space :: first :: comma :: second :: rest ∧
        space.kind = .space ∧ first.WritesAddress adr ∧ comma.kind = .comma ∧
        second.WritesAddress adr' ∧ operands = .buffer adr adr' := by
  rw [buffer]
  simp only [Traversal.bind_eq_ok, Prod.exists, line.separator_comma_eq_ok]
  constructor
  · rintro ⟨after, hspace, adr, _, hadr, more, ⟨comma, rfl, separator⟩, adr', _, hadr', ⟨⟩⟩
    obtain ⟨space, rfl, blank⟩ := line.exists_space_of_separator hspace
    obtain ⟨first, rfl, address⟩ := (line.address_eq_ok hbuffer hspelled.tail).1 hadr
    obtain ⟨second, rfl, address'⟩ :=
      (line.address_eq_ok hlength hspelled.tail.tail.tail).1 hadr'
    exact ⟨space, first, comma, second, adr, adr', rfl, blank, address, separator, address', rfl⟩
  · rintro ⟨space, first, comma, second, adr, adr', rfl, blank, address, separator, address', rfl⟩
    have hends := endsLine_of_isAddress (isAddress_of_writesAddress address)
    have hadr := (line.address_eq_ok hbuffer hspelled.tail).2 ⟨first, rfl, address⟩
    have hadr' := (line.address_eq_ok hlength hspelled.tail.tail.tail).2 ⟨second, rfl, address'⟩
    exact ⟨_, line.separator_space_cons blank hends, adr, _, hadr, _, ⟨comma, rfl, separator⟩,
      adr', rest, hadr', rfl⟩

theorem operands_eq_ok_of_buffer (hspelled : AllSpelled gr8 tokens) (shape : m.shape = .buffer) :
    line.operands m tokens = .ok (operands, rest) ↔
      ∃ space first comma second adr adr', tokens = space :: first :: comma :: second :: rest ∧
        space.kind = .space ∧ first.WritesAddress adr ∧ comma.kind = .comma ∧
        second.WritesAddress adr' ∧ operands = .buffer adr adr' := by
  rw [Line.operands, shape]
  dsimp only
  split
  · exact line.buffer_eq_ok (fun _ => rfl) (fun _ => rfl) hspelled
  · exact line.buffer_eq_ok (fun _ => rfl) (fun _ => rfl) hspelled

theorem operands_eq_ok_of_entry (shape : m.shape = .entry) :
    line.operands m tokens = .ok (operands, rest) ↔
      (atEnd rest = true ∧ rest = tokens ∧ operands = .entry none) ∨
      ∃ space token, tokens = space :: token :: rest ∧ space.kind = .space ∧ token.IsSymbol ∧
        operands = .entry (some (.symbol token.text token.span)) := by
  rw [Line.operands, shape]
  dsimp only
  split
  · rename_i hend
    constructor
    · rintro ⟨⟩
      exact .inl ⟨hend, rfl, rfl⟩
    · rintro (⟨-, rfl, rfl⟩ | ⟨space, token, rfl, blank, symbol, -⟩)
      · rfl
      · rw [atEnd_cons_space blank, endsLine_of_isSymbol symbol] at hend
        cases hend
  · rename_i hend
    simp only [Traversal.bind_eq_ok, Prod.exists, line.expect_eq_ok]
    constructor
    · rintro ⟨space, _, ⟨rfl, blank⟩, token, _, ⟨rfl, haccepts⟩, target, htarget, ⟨⟩⟩
      have hkind : token.kind = .label ∨ token.kind = .mnemonic := by
        simpa [Slot.accepts] using haccepts
      obtain ⟨symbol, rfl⟩ := (line.symbol_eq_ok hkind).1 htarget
      exact .inr ⟨space, token, rfl, beq_iff_eq.1 blank, symbol, rfl⟩
    · rintro (⟨hend', rfl, -⟩ | ⟨space, token, rfl, blank, symbol, rfl⟩)
      · exact absurd hend' hend
      · have haccepts : Slot.accepts .entryLabel token.kind = true := by
          simpa [Slot.accepts] using symbol.kind
        exact ⟨space, _, ⟨rfl, beq_iff_eq.2 blank⟩, token, rest, ⟨rfl, haccepts⟩, _,
          (line.symbol_eq_ok symbol.kind).2 ⟨symbol, rfl⟩, rfl⟩

theorem operands_eq_ok_of_wordCount (shape : m.shape = .wordCount) :
    line.operands m tokens = .ok (operands, rest) ↔ ∃ space token count,
      tokens = space :: token :: rest ∧ space.kind = .space ∧ token.kind = .constant .decimal ∧
        Token.WritesConstant .decimal token.text.toList [((count : Nat) : Int)] ∧
        operands = .wordCount count := by
  rw [Line.operands, shape]
  simp only [Traversal.bind_eq_ok, Prod.exists, line.wordCount_eq_ok]
  constructor
  · rintro ⟨_, hspace, count, _, ⟨token, rfl, kind, constant⟩, ⟨⟩⟩
    obtain ⟨-, space, rfl, blank⟩ := line.separator_space_eq_ok.1 hspace
    exact ⟨space, token, count, rfl, blank, kind, constant, rfl⟩
  · rintro ⟨space, token, count, rfl, blank, kind, constant, rfl⟩
    have hends : token.kind.endsLine = false := by simp [kind, Token.Kind.endsLine]
    exact ⟨_, line.separator_space_cons blank hends, count, rest, ⟨token, rfl, kind, constant⟩, rfl⟩

theorem operands_eq_ok_of_constants (hspelled : AllSpelled gr8 tokens)
    (shape : m.shape = .constants) :
    line.operands m tokens = .ok (operands, rest) ↔ ∃ space front words,
      tokens = space :: (front ++ rest) ∧ space.kind = .space ∧ IsConstantList front words ∧
        (∀ t ∈ rest.head?, t.kind ≠ .comma) ∧ operands = .constants words := by
  rw [Line.operands, shape]
  simp only [Traversal.bind_eq_ok, Prod.exists]
  constructor
  · rintro ⟨after, hspace, words, _, hwords, ⟨⟩⟩
    obtain ⟨space, rfl, blank⟩ := line.exists_space_of_separator hspace
    obtain ⟨front, rfl, constants, hstop⟩ := (line.constants_eq_ok hspelled.tail).1 hwords
    exact ⟨space, front, words, rfl, blank, constants, hstop, rfl⟩
  · rintro ⟨space, front, words, rfl, blank, constants, hstop, rfl⟩
    have hwords := (line.constants_eq_ok hspelled.tail).2 ⟨front, rfl, constants, hstop⟩
    obtain ⟨token, more, rfl, hends⟩ := exists_cons_of_isConstantList constants
    exact ⟨_, line.separator_space_cons blank hends, words, rest, hwords, rfl⟩

end Shapes

theorem IsRegisterAddress.exists_front {m : Mnemonic} {operands : Operands}
    (h : IsRegisterAddress tokens operands rest)
    (shape : m.shape = .registerAddress ∨ m.shape = .registerOrAddress) :
    ∃ front, tokens = front ++ rest ∧ IsOperandList m front operands ∧
      operands.StopBefore rest := by
  obtain ⟨blank, register, separator, address, index, hstop⟩ := h
  exact ⟨_ :: _ :: _ :: _ :: _, rfl,
    .registerAddress shape blank register separator address index,
    stopBefore_registerAddress hstop⟩

/-- The operands that are read are those of the grammar. -/
theorem exists_operandList {m : Mnemonic} {operands : Operands} (hspelled : AllSpelled gr8 tokens)
    (h : line.operands m tokens = .ok (operands, rest)) :
    ∃ front, tokens = front ++ rest ∧ IsOperandList m front operands ∧
      operands.StopBefore rest := by
  cases hshape : m.shape with
  | none =>
    obtain ⟨rfl, rfl⟩ := (line.operands_eq_ok_of_none hshape).1 h
    exact ⟨[], rfl, .none hshape, trivial⟩
  | register =>
    obtain ⟨space, token, r, rfl, blank, register, rfl⟩ :=
      (line.operands_eq_ok_of_register hshape).1 h
    exact ⟨[space, token], rfl, .register hshape blank register, trivial⟩
  | address =>
    obtain ⟨space, token, front, adr, x, rfl, blank, address, index, hstop, rfl⟩ :=
      (line.operands_eq_ok_of_address hspelled hshape).1 h
    exact ⟨space :: token :: front, rfl, .address hshape blank address index,
      stopBefore_address hstop⟩
  | registerAddress =>
    exact ((line.operands_eq_ok_of_registerAddress hspelled hshape).1 h).exists_front (.inl hshape)
  | registerOrAddress =>
    rcases (line.operands_eq_ok_of_registerOrAddress hspelled hshape).1 h with
      h | ⟨space, first, comma, second, r1, r2, rfl, blank, register, separator, register', rfl⟩
    · exact h.exists_front (.inr hshape)
    · exact ⟨[space, first, comma, second], rfl,
        .registers hshape blank register separator register', trivial⟩
  | buffer =>
    obtain ⟨space, first, comma, second, adr, adr', rfl, blank, address, separator, address',
      rfl⟩ := (line.operands_eq_ok_of_buffer hspelled hshape).1 h
    exact ⟨[space, first, comma, second], rfl, .buffer hshape blank address separator address',
      trivial⟩
  | entry =>
    rcases (line.operands_eq_ok_of_entry hshape).1 h with
      ⟨hend, rfl, rfl⟩ | ⟨space, token, rfl, blank, symbol, rfl⟩
    · exact ⟨[], rfl, .noEntry hshape, hend⟩
    · exact ⟨[space, token], rfl, .entry hshape blank symbol, trivial⟩
  | wordCount =>
    obtain ⟨space, token, count, rfl, blank, kind, constant, rfl⟩ :=
      (line.operands_eq_ok_of_wordCount hshape).1 h
    exact ⟨[space, token], rfl, .wordCount hshape blank kind constant, trivial⟩
  | constants =>
    obtain ⟨space, front, words, rfl, blank, constants, hstop, rfl⟩ :=
      (line.operands_eq_ok_of_constants hspelled hshape).1 h
    exact ⟨space :: front, rfl, .constants hshape blank constants, hstop⟩

/-- The operands of the grammar are read, if they stop before what follows them. -/
theorem operands_of_operandList {m : Mnemonic} {front : List Token} {operands : Operands}
    (hspelled : AllSpelled gr8 (front ++ rest)) (hstop : operands.StopBefore rest)
    (h : IsOperandList m front operands) :
    line.operands m (front ++ rest) = .ok (operands, rest) := by
  cases h with
  | none shape => exact (line.operands_eq_ok_of_none shape).2 ⟨rfl, rfl⟩
  | register shape blank register =>
    exact (line.operands_eq_ok_of_register shape).2 ⟨_, _, _, rfl, blank, register, rfl⟩
  | @address _ _ _ _ x shape blank address index =>
    have hend : x = none → atEnd rest = true := by
      rintro rfl
      exact hstop
    exact (line.operands_eq_ok_of_address hspelled shape).2
      ⟨_, _, _, _, _, rfl, blank, address, index, hend, rfl⟩
  | @registerAddress _ _ _ _ _ _ _ x shape blank register separator address index =>
    have hend : x = none → atEnd rest = true := by
      rintro rfl
      exact hstop
    have hwrites := IsRegisterAddress.mk blank register separator address index hend
    rcases shape with shape | shape
    · exact (line.operands_eq_ok_of_registerAddress hspelled shape).2 hwrites
    · exact (line.operands_eq_ok_of_registerOrAddress hspelled shape).2 (.inl hwrites)
  | registers shape blank register separator register' =>
    exact (line.operands_eq_ok_of_registerOrAddress hspelled shape).2
      (.inr ⟨_, _, _, _, _, _, rfl, blank, register, separator, register', rfl⟩)
  | buffer shape blank address separator address' =>
    exact (line.operands_eq_ok_of_buffer hspelled shape).2
      ⟨_, _, _, _, _, _, rfl, blank, address, separator, address', rfl⟩
  | noEntry shape => exact (line.operands_eq_ok_of_entry shape).2 (.inl ⟨hstop, rfl, rfl⟩)
  | entry shape blank symbol =>
    exact (line.operands_eq_ok_of_entry shape).2 (.inr ⟨_, _, rfl, blank, symbol, rfl⟩)
  | wordCount shape blank kind constant =>
    exact (line.operands_eq_ok_of_wordCount shape).2
      ⟨_, _, _, rfl, blank, kind, constant, rfl⟩
  | constants shape blank constants =>
    exact (line.operands_eq_ok_of_constants hspelled shape).2
      ⟨_, _, _, rfl, blank, constants, hstop, rfl⟩

/-! ## Statements -/

theorem labelsInstruction_iff : labelsInstruction (token :: rest) = true ↔ FollowLabel rest := by
  cases rest with
  | nil => simp [labelsInstruction, FollowLabel]
  | cons space rest =>
    cases rest with
    | nil => simp [labelsInstruction, FollowLabel]
    | cons mnemonic rest => simp [labelsInstruction, FollowLabel]

theorem labelled_eq_ok (h : token.kind = .label ∨ token.kind = .mnemonic)
    {label : Option String} :
    line.labelled token tokens = .ok (label, rest) ↔ token.IsSymbol ∧ label = some token.text ∧
      ∃ space, tokens = space :: rest ∧ space.kind = .space := by
  rw [labelled, Traversal.bind_eq_ok, Prod.exists]
  simp only [expect_eq_ok, Slot.accepts, beq_iff_eq]
  rw [isSymbol_iff h]
  cases Register.isName token.text with
  | true => simp [problem]
  | false =>
    constructor
    · rintro ⟨space, _, ⟨rfl, blank⟩, ⟨⟩⟩
      exact ⟨rfl, rfl, space, rfl, blank⟩
    · rintro ⟨-, rfl, space, rfl, blank⟩
      exact ⟨space, rest, ⟨rfl, blank⟩, rfl⟩

/-- The name of an instruction at the beginning of a line is not a label only if no other
instruction follows it. -/
theorem exists_head {label : Option String} (h : line.label tokens = .ok (label, rest)) :
    ∃ head, tokens = head ++ rest ∧ IsHead head label ∧
      (head = [] → labelsInstruction rest = false) := by
  cases tokens with
  | nil => cases h
  | cons first tokens =>
    rw [Line.label, next_cons, List.tail_cons] at h
    have hlabelled (hkind : first.kind = .label ∨ first.kind = .mnemonic)
        (h : line.labelled first tokens = .ok (label, rest)) :
        ∃ head, first :: tokens = head ++ rest ∧ IsHead head label ∧
          (head = [] → labelsInstruction rest = false) := by
      obtain ⟨symbol, rfl, space, rfl, blank⟩ := (line.labelled_eq_ok hkind).1 h
      exact ⟨[first, space], rfl, .label symbol blank, by simp⟩
    split at h
    · rename_i blank
      cases h
      exact ⟨[first], rfl, .blank blank, by simp⟩
    · rename_i hkind
      split at h
      · exact hlabelled (.inr hkind) h
      · rename_i hlabels
        cases h
        exact ⟨[], rfl, .nothing, fun _ => Bool.eq_false_iff.2 hlabels⟩
    · rename_i hkind
      exact hlabelled (.inl hkind) h
    · cases h

theorem label_of_isHead {head : List Token} {label : Option String} (h : IsHead head label)
    (hkind : token.kind = .mnemonic) (hbare : head = [] → ¬ FollowLabel rest) :
    line.label (head ++ token :: rest) = .ok (label, token :: rest) := by
  cases h with
  | nothing =>
    have hlabels : labelsInstruction (token :: rest) = false :=
      Bool.eq_false_iff.2 fun h => hbare rfl (labelsInstruction_iff.1 h)
    simp only [Line.label, List.nil_append, next_cons, hkind, hlabels, Bool.false_eq_true, if_false]
  | @blank space blank =>
    simp only [Line.label, List.cons_append, List.nil_append, next_cons, blank, List.tail_cons]
  | @label first space symbol blank =>
    have hfollow : labelsInstruction (first :: space :: token :: rest) = true :=
      labelsInstruction_iff.2 ⟨space, token, rest, rfl, blank, hkind⟩
    have hlabelled : line.labelled first (space :: token :: rest) =
        .ok (some first.text, token :: rest) :=
      (line.labelled_eq_ok symbol.kind).2 ⟨symbol, rfl, space, rfl, blank⟩
    rcases symbol.kind with kind | kind <;>
      simp only [Line.label, List.cons_append, List.nil_append, next_cons, kind, hfollow, if_true,
        List.tail_cons, hlabelled]

/-- The parts of the tokens that a statement is read from. -/
theorem exists_parts {s : Statement} (hspelled : AllSpelled gr8 tokens)
    (h : line.statement tokens = .ok (s, rest)) :
    ∃ head token operandTokens, tokens = head ++ token :: (operandTokens ++ rest) ∧
      IsHead head s.label ∧ token.kind = .mnemonic ∧
      Mnemonic.ofName? token.text = some s.mnemonic ∧
      IsOperandList s.mnemonic operandTokens s.operands ∧ s.operands.StopBefore rest ∧
      (head = [] → ¬ FollowLabel (operandTokens ++ rest)) := by
  replace h := Traversal.exists_of_bind (fun _ => line.exists_head) h
  obtain ⟨⟨label, _⟩, ⟨head, rfl, hhead, hbare⟩, h⟩ := h
  replace h := Traversal.exists_of_bind (fun _ => line.expect_eq_ok.1) h
  obtain ⟨⟨token, after⟩, ⟨htokens, hkind⟩, h⟩ := h
  dsimp only at htokens hkind h
  subst htokens
  cases hm : Mnemonic.ofName? token.text with
  | none =>
    rw [hm] at h
    cases h
  | some m =>
    rw [hm] at h
    have hafter : AllSpelled gr8 after := fun t ht => hspelled t (by simp [ht])
    replace h := Traversal.exists_of_bind (fun _ => line.exists_operandList hafter) h
    obtain ⟨⟨operands, _⟩, ⟨front, rfl, hoperands, hstop⟩, h⟩ := h
    cases h
    refine ⟨head, token, front, rfl, hhead, beq_iff_eq.1 hkind, hm, hoperands, hstop, ?_⟩
    intro hnil hfollow
    have hlabels := hbare hnil
    rw [labelsInstruction_iff.2 hfollow] at hlabels
    cases hlabels

theorem statement_of_parts {s : Statement} {head operandTokens : List Token}
    (hspelled : AllSpelled gr8 (head ++ token :: (operandTokens ++ rest)))
    (hstop : s.operands.StopBefore rest) (hhead : IsHead head s.label)
    (hkind : token.kind = .mnemonic) (hrow : Mnemonic.ofName? token.text = some s.mnemonic)
    (hoperands : IsOperandList s.mnemonic operandTokens s.operands)
    (hbare : head = [] → ¬ FollowLabel (operandTokens ++ rest)) :
    line.statement (head ++ token :: (operandTokens ++ rest)) = .ok (s, rest) := by
  have hafter : AllSpelled gr8 (operandTokens ++ rest) :=
    fun t ht => hspelled t (List.mem_append_right _ (.tail _ ht))
  have hmnemonic : line.expect .mnemonic (token :: (operandTokens ++ rest)) =
      .ok (token, operandTokens ++ rest) :=
    line.expect_eq_ok.2 ⟨rfl, beq_iff_eq.2 hkind⟩
  simp only [statement, line.label_of_isHead hhead hkind hbare, hmnemonic, hrow,
    line.operands_of_operandList hafter hstop hoperands, bind, Except.bind, pure, Except.pure]

end Line

end Statement

end Comet
