import Comet.Charset
import Comet.Operand
import Comet.Statement.Line
import Comet.Text.Numeral
import Comet.Text.Quoted

/-!
# The meaning of a token

A numeral stands for a value, a string for the codes of its characters, and a
name for a label. Each of them may turn out to be wrong, and then the problem is
that of the whole token.
-/

namespace Comet.Statement

/-- What stands between two delimiters of one byte each. -/
def inside? : List Char → Option (List Char)
  | [] => none
  | first :: rest =>
    match rest.getLast? with
    | none => none
    | some last => if first.utf8Size = 1 ∧ last.utf8Size = 1 then some rest.dropLast else none

/-- What follows a mark of one byte. -/
def afterMark? : List Char → Option (List Char)
  | [] => none
  | first :: rest => if first.utf8Size = 1 then some rest else none

namespace Line

variable (line : Line)

/-- The value of a numeral, which has to fit in a word. -/
def value (token : Token) (numeral : List Char) : Except Stop Int :=
  match (Text.Numeral.value? numeral).filter Word.fits with
  | some value => .ok value
  | none => line.problem token.span (.outOfRange (String.ofList numeral))

/-- The codes of the characters of a quoted string. -/
def string (token : Token) (quoted : List Char) : Except Stop (List Int) :=
  match inside? quoted with
  | none => .error (.fault (.malformedConstant token.text))
  | some inside =>
    match Text.Quoted.undouble? inside with
    | none => line.problem token.span .unbalancedQuotes
    | some [] => line.problem token.span (.expected .constant)
    | some text =>
      match Charset.encode? text with
      | none => line.problem token.span .outOfCharset
      | some codes => .ok (codes.map fun code => (code.toNat : Int))

/-- The words of a constant of the given form. -/
def constant (token : Token) (form : ConstantForm) (text : List Char) :
    Except Stop (List Int) :=
  match form with
  | .string => line.string token text
  | .decimal | .hex => do
    let value ← line.value token text
    return [value]

/-- The label that a token names. -/
def symbol (token : Token) : Except Stop Operand :=
  if Register.isName token.text then line.problem token.span (.reservedLabel token.text)
  else .ok (.symbol token.text token.span)

/-- The operand that a token stands for as an address. -/
def addressOf (token : Token) : Except Stop Operand :=
  match token.kind with
  | .constant .decimal | .constant .hex => do
    let value ← line.value token token.text.toList
    return .resolved value
  | .literal form =>
    match afterMark? token.text.toList with
    | none => .error (.fault (.malformedConstant token.text))
    | some text => do
      let words ← line.constant token form text
      return .literal ⟨token.text, words⟩ token.span
  | _ => line.symbol token

/-- The data words that a token stands for as a constant. -/
def dataOf (token : Token) : Except Stop (List Operand) :=
  match token.kind with
  | .constant form => do
    let words ← line.constant token form token.text.toList
    return words.map .resolved
  | _ => do
    let operand ← line.symbol token
    return [operand]

end Line

end Comet.Statement
