import Comet.Mnemonic
import Comet.Register
import Comet.Text.Span

/-!
# Tokens

The parts of a source line. Blanks are tokens too, because they separate the
label, the instruction and its operands. A constant may be written as it is or,
after an equals sign, as a literal: a reference to storage that holds it.
-/

namespace Comet

/-- The ways to write a constant. -/
inductive ConstantForm
  | decimal
  | hex
  | string
  deriving DecidableEq, Repr

namespace Token

/-- What a token is, which follows from its text alone. -/
inductive Kind
  | mnemonic
  | register
  | label
  | space
  | comma
  | constant (form : ConstantForm)
  | literal (form : ConstantForm)
  | comment
  | endOfLine
  deriving DecidableEq, Repr

namespace Kind

/-- The kinds that may stand for an address. -/
def isAddress : Kind → Bool
  | label | mnemonic | constant .decimal | constant .hex | literal _ => true
  | _ => false

/-- The kinds that may stand for a constant. -/
def isConstant : Kind → Bool
  | label | mnemonic | constant _ => true
  | _ => false

/-- The kinds that refer to pooled storage. -/
def isLiteral : Kind → Bool
  | literal _ => true
  | _ => false

/-- The kinds that end the part of a line that is read. -/
def endsLine : Kind → Bool
  | comment | endOfLine => true
  | _ => false

/-- The kind of a token that is spelled like a name. -/
def ofName (gr8 : Bool) (name : String) : Kind :=
  if (Mnemonic.ofName? name).isSome then mnemonic
  else if (Register.ofName? name).any (Register.available gr8) then register
  else label

end Kind

end Token

/-- A part of a source line with its place. -/
structure Token where
  text : String
  kind : Token.Kind
  line : Nat
  span : Span
  deriving DecidableEq, Repr

namespace Token

/-- The token with the given text at a column of a line. -/
def ofText (kind : Kind) (line column : Nat) (text : List Char) : Token :=
  { text := String.ofList text, kind, line, span := .ofText column text }

/-- The empty token at the end of a line. -/
def atLineEnd (line column : Nat) : Token :=
  ofText .endOfLine line column []

end Token

end Comet
