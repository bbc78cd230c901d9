import Comet.Statement

/-!
# The problems of a line

Reading a line stops at its first problem. `Line.Arises` says which problems there are and where
they are reported, in terms of the tokens that are left there: a part is missing at the end of the
line, something is expected before it, or the text of a token has no meaning. None of this
mentions how a line is read.

Whatever is to be known of all problems of a line follows from it: that they are errors, that they
point at the source, that they tell missing parts from wrong ones, or that they stand behind a
part of the line.
-/

namespace Comet

/-- The kinds of blanks and commas, which stand before names and constants. -/
def Token.Kind.isMark : Token.Kind → Bool
  | space | comma => true
  | _ => false

/-- The problems that the text of a token can have. -/
inductive Diagnostic.Kind.Concerns (text : String) : Diagnostic.Kind → Prop
  | outOfRange {numeral : String} : Concerns text (.outOfRange numeral)
  | invalidWordCount : Concerns text .invalidWordCount
  | unbalancedQuotes : Concerns text .unbalancedQuotes
  | outOfCharset : Concerns text .outOfCharset
  | empty : Concerns text (.expected .constant)
  | reservedLabel : Concerns text (.reservedLabel text)

namespace Statement

/-! ## The end of a line -/

theorem atEnd_cons_space {space : Token} (h : space.kind = .space) (token : Token)
    (rest : List Token) : atEnd (space :: token :: rest) = token.kind.endsLine := by
  simp [atEnd, h, Token.Kind.endsLine]

/-- Only a blank, a comment and the end of a line can stand at the end. -/
theorem atEnd_cons_of_ne {token : Token} (hspace : token.kind ≠ .space)
    (hends : token.kind.endsLine = false) (rest : List Token) :
    atEnd (token :: rest) = false := by
  cases rest <;> simp [atEnd, hspace, hends]

theorem atEnd_cons_comma {comma : Token} (h : comma.kind = .comma) (rest : List Token) :
    atEnd (comma :: rest) = false :=
  atEnd_cons_of_ne (by simp [h]) (by simp [h, Token.Kind.endsLine]) rest

/-! ## Slots -/

namespace Slot

variable {slot : Slot} {found : Token.Kind}

theorem accepts_endOfLine (slot : Slot) : slot.accepts .endOfLine = false := by
  cases slot <;> rfl

theorem endsLine_of_accepts (h : slot.accepts found = true) : found.endsLine = false := by
  cases found with
  | comment | endOfLine => cases slot <;> cases h
  | _ => rfl

/-- The slots that an address fills. -/
def TakesAddress (slot : Slot) : Prop :=
  ∀ kind, slot.accepts kind = kind.isAddress

/-- The slots that a register fills. -/
def TakesRegister (slot : Slot) : Prop :=
  ∀ kind, slot.accepts kind = (kind == .register)

/-- The slots of separators. -/
def IsMark (slot : Slot) : Prop := slot = .space ∨ slot = .comma

theorem IsMark.isMark_of_accepts (h : slot.IsMark) (haccepts : slot.accepts found = true) :
    found.isMark = true := by
  rcases h with rfl | rfl
  · rw [eq_of_beq haccepts]
    rfl
  · rw [eq_of_beq haccepts]
    rfl

/-- A slot for a part of the statement, which is reported as missing and which no blank fills. -/
structure IsPart (slot : Slot) : Prop where
  absence : ∃ part, slot.absence = .missing part
  ne_space : slot.accepts .space = false

end Slot

/-! ## Problems -/

/-- The tokens are left behind a separator, where a part of the statement may stand. -/
def IsPlace (tokens rest : List Token) : Prop :=
  ∃ mark : Token, mark.kind.isMark = true ∧ mark :: rest <:+ tokens

theorem IsPlace.isSuffix {tokens rest : List Token} (h : IsPlace tokens rest) :
    rest <:+ tokens := by
  obtain ⟨mark, -, hmark⟩ := h
  exact (List.suffix_cons mark rest).trans hmark

namespace Line

section

variable (line : Line) {rest : List Token} {token : Token}

@[simp] theorem next_cons : line.next (token :: rest) = token := rfl

theorem atEnd_of_endsLine (h : (line.next rest).kind.endsLine = true) : atEnd rest = true := by
  cases rest with
  | nil => rfl
  | cons token rest =>
    rw [next_cons] at h
    cases rest <;> simp [atEnd, h]

/-- Where no blank stands, one token shows whether the line ends. -/
theorem atEnd_eq_endsLine (h : (line.next rest).kind ≠ .space) :
    atEnd rest = (line.next rest).kind.endsLine := by
  cases rest with
  | nil => rfl
  | cons token rest =>
    rw [next_cons] at h ⊢
    cases rest <;> simp [atEnd, h]

theorem atEnd_of_accepts {slot : Slot} (hpart : slot.IsPart)
    (haccepts : slot.accepts (line.next rest).kind = true) : atEnd rest = false := by
  have hne : (line.next rest).kind ≠ .space := by
    intro hspace
    rw [hspace, hpart.ne_space] at haccepts
    cases haccepts
  rw [line.atEnd_eq_endsLine hne]
  exact Slot.endsLine_of_accepts haccepts

/-- A blank that does not end the line has something behind it. -/
theorem endsLine_next_of_space {space : Token} (hspace : space.kind = .space)
    (hend : atEnd (space :: rest) = false) : (line.next rest).kind.endsLine = false := by
  cases rest with
  | nil => simp [atEnd, hspace] at hend
  | cons token rest => exact (atEnd_cons_space hspace token rest).symm.trans hend

end

/-- More than blanks and a comment is left. Behind a separator the next token shows it, because
no blank follows another. -/
inductive GoesOn (line : Line) (tokens rest : List Token) : Prop
  | begun (left : rest <:+ tokens) (unfinished : atEnd rest = false)
  | place (place : IsPlace tokens rest) (token : (line.next rest).kind.endsLine = false)

/-- The problem is about the text of the token. -/
inductive Blames (line : Line) (token : Token) : Diagnostic → Prop
  | mk {kind : Diagnostic.Kind} (concerns : kind.Concerns token.text) :
      Blames line token ⟨⟨line.number, token.span⟩, kind⟩

/-- What can be wrong with the tokens of a line, and where it is reported. -/
inductive Arises (line : Line) (tokens : List Token) : Diagnostic → Prop
  | missing {rest : List Token} {part : Diagnostic.Part} (left : rest <:+ tokens)
      (ended : atEnd rest = true) :
      Arises line tokens (line.diagnosticFrom (line.next rest).span.start (.missing part))
  | unexpected {rest : List Token} {category : Diagnostic.Category}
      (goesOn : line.GoesOn tokens rest) :
      Arises line tokens (line.diagnosticFrom (line.next rest).span.start (.expected category))
  /-- The blank behind a label is expected even where the line ends. -/
  | bareLabel (label : (line.next tokens).kind = .label)
      (ended : (line.next tokens.tail).kind.endsLine = true) :
      Arises line tokens
        (line.diagnosticFrom (line.next tokens.tail).span.start (.expected .space))
  | ofToken {rest : List Token} {d : Diagnostic} (left : rest <:+ tokens)
      (unfinished : atEnd rest = false) (blames : line.Blames (line.next rest) d) :
      Arises line tokens d
  /-- The columns of an index register are computed. -/
  | zeroIndex {rest : List Token} (left : rest <:+ tokens) (unfinished : atEnd rest = false)
      (register : (line.next rest).text = Register.gr0.name) :
      Arises line tokens ⟨⟨line.number, (line.next rest).span.start,
        (line.next rest).span.start + 3⟩, .zeroIndex⟩

variable {line : Line} {tokens rest : List Token}

theorem GoesOn.isSuffix (h : line.GoesOn tokens rest) : rest <:+ tokens := by
  cases h with
  | begun left => exact left
  | place place => exact place.isSuffix

theorem GoesOn.endsLine_eq (h : line.GoesOn tokens rest) :
    (line.next rest).kind.endsLine = false := by
  cases h with
  | begun _ unfinished =>
    refine Bool.eq_false_iff.2 fun hends => ?_
    rw [line.atEnd_of_endsLine hends] at unfinished
    cases unfinished
  | place _ token => exact token

theorem isError_of_concerns {text : String} {kind : Diagnostic.Kind} (h : kind.Concerns text)
    (location : Location) : Diagnostic.isError ⟨location, kind⟩ = true := by
  cases h <;> rfl

/-- Problems are errors. -/
theorem Arises.isError {d : Diagnostic} (h : line.Arises tokens d) : d.isError = true := by
  cases h with
  | ofToken _ _ blames =>
    cases blames with
    | mk concerns => exact isError_of_concerns concerns _
  | _ => rfl

end Line

end Statement

end Comet
