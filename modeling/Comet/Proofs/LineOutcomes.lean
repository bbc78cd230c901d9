import Comet.Proofs.LineGrammar

/-!
# What a line comes to

A line that can be scanned comes to one of three things: it is empty and gives nothing, it is
rejected with one error, or it is accepted and gives records, with one remark at most. Reading
stops at the first problem, and whatever was read before it is dropped, so an error never stands
beside records. A remark is made only after the last operand.

Which lines are empty is a property of the tokens in front of the comment.
-/

namespace Comet.Statement

/-- What a line comes to. -/
inductive Outcome
  | empty
  | rejected
  | accepted
  deriving DecidableEq, Repr

namespace Reading

/-- The readings of each outcome. -/
inductive HasOutcome : Reading → Outcome → Prop
  | empty : HasOutcome ⟨[], []⟩ .empty
  | rejected {d : Diagnostic} (severity : d.severity = .error) : HasOutcome ⟨[], [d]⟩ .rejected
  | accepted {records : List Record} (nonempty : records ≠ []) : HasOutcome ⟨records, []⟩ .accepted
  | remarked {records : List Record} {d : Diagnostic} (nonempty : records ≠ [])
      (kind : d.kind = .unnecessaryOperand) (severity : d.severity = .message) :
      HasOutcome ⟨records, [d]⟩ .accepted

variable {reading : Reading} {o o' : Outcome}

/-- The records and the number of diagnostics tell the outcomes apart. -/
theorem HasOutcome.unique (h : reading.HasOutcome o) (h' : reading.HasOutcome o') : o = o' := by
  cases h with
  | empty =>
    cases h' with
    | empty => rfl
    | accepted nonempty => exact absurd rfl nonempty
  | rejected severity =>
    cases h' with
    | rejected => rfl
    | remarked nonempty => exact absurd rfl nonempty
  | accepted nonempty =>
    cases h' with
    | empty => exact absurd rfl nonempty
    | accepted => rfl
  | remarked nonempty =>
    cases h' with
    | rejected => exact absurd rfl nonempty
    | remarked => rfl

/-- No record stands beside an error. -/
theorem HasOutcome.records_eq_nil (h : reading.HasOutcome o)
    (herror : Diagnostic.hasErrors reading.diagnostics = true) : reading.records = [] := by
  cases h with
  | empty => rfl
  | rejected => rfl
  | accepted => cases herror
  | remarked _ _ severity => simp [Diagnostic.hasErrors, Diagnostic.isError, severity] at herror

end Reading

/-- The tokens in front of the comment and of the end of the line. -/
def content (tokens : List Token) : List Token :=
  tokens.takeWhile fun token => !token.kind.endsLine

/-- Nothing but one blank stands in front of the comment. -/
def IsVacant (tokens : List Token) : Prop :=
  content tokens = [] ∨ ∃ space, content tokens = [space] ∧ space.kind = .space

variable {gr8 : Bool} {number : Nat} {tokens : List Token}

theorem content_cons_of_endsLine {token : Token} (h : token.kind.endsLine = true)
    (rest : List Token) : content (token :: rest) = [] := by
  simp [content, h]

theorem content_cons {token : Token} (h : token.kind.endsLine = false) (rest : List Token) :
    content (token :: rest) = token :: content rest := by
  simp [content, h]

theorem content_eq_nil {token : Token} {rest : List Token} :
    content (token :: rest) = [] ↔ token.kind.endsLine = true := by
  cases h : token.kind.endsLine with
  | true => simp [content_cons_of_endsLine h]
  | false => simp [content_cons h]

/-- To be at the end of a line, two tokens are looked at. A third one matters only if the first
two do not end the line. -/
theorem atEnd_iff_isVacant : atEnd tokens = true ↔ IsVacant tokens := by
  cases tokens with
  | nil => exact iff_of_true rfl (.inl rfl)
  | cons token rest =>
    by_cases hends : token.kind.endsLine = true
    · have hvacant : IsVacant (token :: rest) := .inl (content_cons_of_endsLine hends rest)
      refine iff_of_true ?_ hvacant
      cases rest <;> simp [atEnd, hends]
    · have hinner : token.kind.endsLine = false := Bool.eq_false_iff.2 hends
      rw [IsVacant, content_cons hinner]
      by_cases hspace : token.kind = .space
      · cases rest with
        | nil => simp [atEnd, hspace, content]
        | cons next rest => simp [atEnd_cons_space hspace, hspace, content_eq_nil]
      · simp [atEnd_cons_of_ne hspace hinner, hspace]

/-- The remark on what is left is one message at most. -/
theorem remark_cases (line : Line) (rest : List Token) :
    line.remark rest = [] ∨ ∃ d, line.remark rest = [d] ∧ d.kind = .unnecessaryOperand := by
  rw [Line.remark]
  split
  · exact .inl rfl
  · exact .inr ⟨_, rfl, rfl⟩

theorem hasOutcome_accepted {records : List Record} (h : records ≠ []) (line : Line)
    (rest : List Token) : Reading.HasOutcome ⟨records, line.remark rest⟩ .accepted := by
  rcases remark_cases line rest with hnone | ⟨d, hremark, hkind⟩
  · rw [hnone]
    exact .accepted h
  · have hseverity : d.severity = .message := by
      rw [Diagnostic.severity, hkind]
      rfl
    rw [hremark]
    exact .remarked h hkind hseverity

/-- Whatever is read has an outcome, and it is empty exactly if the line is. -/
theorem exists_hasOutcome (hspelled : AllSpelled gr8 tokens) {reading : Reading}
    (h : read number tokens = .ok reading) :
    ∃ o, reading.HasOutcome o ∧ (o = .empty ↔ IsVacant tokens) := by
  rw [← atEnd_iff_isVacant]
  rcases read_cases hspelled h with
    ⟨hend, rfl⟩ | ⟨d, harises, rfl⟩ | ⟨hbegin, s, rest, bodies, -, hwf, -, hbodies, rfl⟩
  · exact ⟨.empty, .empty, iff_of_true rfl hend⟩
  · have hbegin : atEnd tokens ≠ true := by
      intro hend
      rw [read, if_pos hend] at h
      cases h
    have herror := beq_iff_eq.1 harises.isError
    exact ⟨.rejected, .rejected herror, iff_of_false Outcome.noConfusion hbegin⟩
  · have hnonempty := (areBodies_of_hasBodies hwf hbodies).nonempty
    have hne := recordsOf_ne_nil (s := s) hnonempty number tokens
    refine ⟨.accepted, hasOutcome_accepted hne _ _, ?_⟩
    simp [hbegin]

/-- Reading a line is all or nothing. A line that can be scanned has exactly one outcome, which is
empty exactly if nothing but a blank stands in front of its comment, and an error leaves no
records. -/
theorem existsUnique_outcome_of_scan {source : String}
    (h : Token.scan gr8 number source = .ok tokens) :
    ∃ reading, read number tokens = .ok reading ∧ (∃! o, reading.HasOutcome o) ∧
      (reading.HasOutcome .empty ↔ IsVacant tokens) ∧
      (Diagnostic.hasErrors reading.diagnostics = true → reading.records = []) := by
  have hspelled : AllSpelled gr8 tokens := Token.spelled_of_scan h
  obtain ⟨reading, hread, -⟩ := exists_read number hspelled
  obtain ⟨o, houtcome, hempty⟩ := exists_hasOutcome hspelled hread
  refine ⟨reading, hread, ⟨o, houtcome, fun o' h' => h'.unique houtcome⟩, ?_, ?_⟩
  · rw [← hempty]
    constructor
    · exact fun h' => houtcome.unique h'
    · rintro rfl
      exact houtcome
  · exact houtcome.records_eq_nil

/-- The last of many constants does not fit in a word. -/
def lateMistake : String := "TABLE DC 1,-2,#FFFF,'AB',LAST,65536 ; six"

/-- What was read before the mistake is dropped. -/
theorem outcome_lateMistake :
    ∃ tokens reading, Token.scan false 7 lateMistake = .ok tokens ∧
      read 7 tokens = .ok reading ∧ (∃! o, reading.HasOutcome o) ∧
      (reading.HasOutcome .empty ↔ IsVacant tokens) ∧ reading.records = [] ∧
      reading.diagnostics = [⟨⟨7, 30, 35⟩, .outOfRange "65536"⟩] := by
  have hread : (Token.scan false 7 lateMistake).toOption.bind (fun tokens =>
      (read 7 tokens).toOption.map (·.diagnostics)) =
      some [⟨⟨7, 30, 35⟩, .outOfRange "65536"⟩] := by
    decide +kernel
  obtain ⟨tokens, hscan, hread⟩ := Option.bind_eq_some_iff.1 hread
  rw [Traversal.toOption_eq_some] at hscan
  obtain ⟨reading, hreading, hempty, hvacant, hnone⟩ := existsUnique_outcome_of_scan hscan
  have hdiagnostics : reading.diagnostics = [⟨⟨7, 30, 35⟩, .outOfRange "65536"⟩] := by
    simpa [hreading, Except.toOption] using hread
  refine ⟨tokens, reading, hscan, hreading, hempty, hvacant, hnone ?_, hdiagnostics⟩
  rw [hdiagnostics]
  rfl

end Comet.Statement
