import Comet.Diagnostic
import Comet.Text.Quoted
import Comet.Token

/-!
# Scanning a line

A line is divided from left to right: at each place the first character decides
which kind of token begins there and how far it reaches. Names reach as far as
upper-case letters and digits go, so what a name is depends on its whole text.

A line is scanned as a whole or not at all. If no token begins somewhere, the
line is invalid from there to its end. Otherwise its tokens, without gaps or
overlaps, are the line, and an empty token marks its end.
-/

namespace Comet.Token

/-- The characters of a name after its first letter. -/
def isNameChar (c : Char) : Bool := c.isUpper || c.isDigit

/-- The digits of a hexadecimal numeral. -/
def isHexDigit (c : Char) : Bool := c.isDigit || ('A' ≤ c && c ≤ 'F')

/-- The first token of a text, as its kind, its characters and the rest. -/
structure Lexeme where
  kind : Kind
  text : List Char
  rest : List Char
  deriving DecidableEq, Repr

namespace Lexeme

/-- The token that begins with `c` and reaches as far as the property holds. -/
def run (kind : Kind) (p : Char → Bool) (c : Char) (cs : List Char) : Lexeme :=
  { kind, text := c :: cs.takeWhile p, rest := cs.dropWhile p }

/-- A mark followed by at least one digit. -/
def marked? (kind : Kind) (p : Char → Bool) (c : Char) (cs : List Char) : Option Lexeme :=
  if (cs.takeWhile p).isEmpty then none else some (run kind p c cs)

/-- A numeral or a string. The kind is chosen by the form of the constant. -/
def constant? (kind : ConstantForm → Kind) : List Char → Option Lexeme
  | [] => none
  | c :: cs =>
    if c.isDigit then some (run (kind .decimal) Char.isDigit c cs)
    else if c = '-' then marked? (kind .decimal) Char.isDigit c cs
    else if c = '#' then marked? (kind .hex) isHexDigit c cs
    else if c = Text.Quoted.quote then
      (Text.Quoted.close? cs).map fun (inside, rest) =>
        { kind := kind .string, text := c :: inside, rest }
    else none

/-- The first token of a text. -/
def first? (gr8 : Bool) : List Char → Option Lexeme
  | [] => none
  | c :: cs =>
    if c.isUpper then
      some (run (.ofName gr8 (String.ofList (c :: cs.takeWhile isNameChar))) isNameChar c cs)
    else if Text.isBlank c then some (run .space Text.isBlank c cs)
    else if c = ',' then some (run .comma Text.isBlank c cs)
    else if c = ';' then some (run .comment (· != '\n') c cs)
    else if c = '=' then
      (constant? .literal cs).map fun l => { l with text := c :: l.text }
    else constant? .constant (c :: cs)

/-- A token and the rest are the text, and the token is not empty. -/
def Splits (l : Lexeme) (cs : List Char) : Prop :=
  l.text ++ l.rest = cs ∧ l.text ≠ []

theorem splits_run (kind : Kind) (p : Char → Bool) (c : Char) (cs : List Char) :
    (run kind p c cs).Splits (c :: cs) := by
  simp [Splits, run]

theorem splits_of_marked? {kind : Kind} {p : Char → Bool} {c : Char} {cs : List Char}
    {l : Lexeme} (h : marked? kind p c cs = some l) : l.Splits (c :: cs) := by
  rw [marked?] at h
  split at h
  · cases h
  · cases h
    exact splits_run kind p c cs

theorem splits_of_constant? {kind : ConstantForm → Kind} {cs : List Char} {l : Lexeme}
    (h : constant? kind cs = some l) : l.Splits cs := by
  cases cs with
  | nil => cases h
  | cons c cs =>
    rw [constant?] at h
    repeat' split at h
    · cases h
      exact splits_run _ _ c cs
    · exact splits_of_marked? h
    · exact splits_of_marked? h
    · obtain ⟨⟨inside, rest⟩, hc, rfl⟩ := Option.map_eq_some_iff.1 h
      simp [Splits, Text.Quoted.append_of_close? hc]
    · cases h

theorem splits_of_first? {gr8 : Bool} {cs : List Char} {l : Lexeme}
    (h : first? gr8 cs = some l) : l.Splits cs := by
  cases cs with
  | nil => cases h
  | cons c cs =>
    rw [first?] at h
    repeat' split at h
    · cases h
      exact splits_run _ _ c cs
    · cases h
      exact splits_run _ _ c cs
    · cases h
      exact splits_run _ _ c cs
    · cases h
      exact splits_run _ _ c cs
    · obtain ⟨l', hl, rfl⟩ := Option.map_eq_some_iff.1 h
      simp [Splits, (splits_of_constant? hl).1]
    · exact splits_of_constant? h

theorem Splits.length_rest_lt {l : Lexeme} {cs : List Char} (h : l.Splits cs) :
    l.rest.length < cs.length := by
  have hpos : 0 < l.text.length := List.length_pos_iff.2 h.2
  have hlen := congrArg List.length h.1
  simp only [List.length_append] at hlen
  omega

end Lexeme

/-- Scans the text that begins at a column. A failure is the column at which no
token begins. -/
def scanFrom (gr8 : Bool) (line column : Nat) (cs : List Char) : Except Nat (List Token) :=
  if cs.isEmpty then .ok [atLineEnd line column]
  else
    match _h : Lexeme.first? gr8 cs with
    | none => .error column
    | some l => do
      let tokens ← scanFrom gr8 line (column + Text.byteLength l.text) l.rest
      return ofText l.kind line column l.text :: tokens
termination_by cs.length
decreasing_by exact (Lexeme.splits_of_first? _h).length_rest_lt

/-- The tokens of a line, or the diagnostic for a line that has none. -/
def scan (gr8 : Bool) (line : Nat) (source : String) : Except Diagnostic (List Token) :=
  let cs := source.toList
  match scanFrom gr8 line 0 cs with
  | .ok tokens => .ok tokens
  | .error column =>
    .error { location := ⟨line, column, Text.byteLength cs⟩, kind := .invalidLine }

end Comet.Token
