import Comet.Fault
import Comet.Statement.Slot

/-!
# Reading the tokens of a line

Every reading function takes the tokens that are left and returns what it has
read with the tokens that are left then, or the reason why reading stops. Beyond
its last token a line goes on with empty tokens at its end.
-/

namespace Comet.Statement

/-- Why reading a line stops. -/
inductive Stop
  /-- The source has a problem. -/
  | problem (d : Diagnostic)
  /-- The tokens are not those of any source text. -/
  | fault (f : Fault)
  deriving DecidableEq, Repr

/-- The line that is read: its number and the column of its end. -/
structure Line where
  number : Nat
  stop : Nat
  deriving DecidableEq, Repr

/-- Whether only blanks and a comment are left. -/
def atEnd : List Token → Bool
  | [] => true
  | [token] => token.kind.endsLine || token.kind == .space
  | token :: next :: _ =>
    token.kind.endsLine || (token.kind == .space && next.kind.endsLine)

namespace Line

/-- The line that the tokens belong to. -/
def ofTokens (number : Nat) (tokens : List Token) : Line :=
  { number, stop := (tokens.getLast?.map (·.span.stop)).getD 0 }

variable (line : Line)

/-- The problem of a span of the line. -/
def problem {α : Type} (span : Span) (kind : Diagnostic.Kind) : Except Stop α :=
  .error (.problem ⟨⟨line.number, span⟩, kind⟩)

/-- The token that stands next. -/
def next (tokens : List Token) : Token :=
  tokens.headD (Token.atLineEnd line.number line.stop)

/-- A diagnostic from a column to the end of the line. -/
def diagnosticFrom (column : Nat) (kind : Diagnostic.Kind) : Diagnostic :=
  ⟨⟨line.number, .toLineEnd column line.stop⟩, kind⟩

/-- The problem of the rest of the line from a column on. -/
def problemFrom {α : Type} (column : Nat) (kind : Diagnostic.Kind) : Except Stop α :=
  .error (.problem (line.diagnosticFrom column kind))

/-- Reads the token that fills a slot. -/
def expect (slot : Slot) (tokens : List Token) : Except Stop (Token × List Token) :=
  if slot.accepts (line.next tokens).kind then .ok (line.next tokens, tokens.tail)
  else
    line.problemFrom (line.next tokens).span.start (slot.report (line.next tokens).kind)

/-- Reads the separator before a slot that has to be filled. At the end of the
line it is the slot that is missing, not the separator. -/
def separator (mark slot : Slot) (tokens : List Token) : Except Stop (List Token) :=
  if atEnd tokens then line.problemFrom (line.next tokens).span.start slot.absence
  else do
    let (_, tokens) ← line.expect mark tokens
    return tokens

/-- The remark on what is left after a complete instruction. -/
def remark (tokens : List Token) : List Diagnostic :=
  if atEnd tokens then []
  else [line.diagnosticFrom (line.next tokens).span.start .unnecessaryOperand]

end Line

end Comet.Statement
