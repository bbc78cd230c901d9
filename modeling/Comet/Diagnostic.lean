import Comet.Text.Span

/-!
# Diagnostics

A diagnostic is a problem of the source, tied to a span of one line. It has a
stable numeric code, by which editors select their quick fixes, a severity and a
message. Only a complete instruction that is followed by something unnecessary
is a mere message; everything else is an error.
-/

namespace Comet

namespace Diagnostic

/-- An error keeps the program from being assembled. -/
inductive Severity
  | error
  | message
  deriving DecidableEq, Repr

/-- What was expected at a place where something else stands. -/
inductive Category
  | space
  | comma
  | register
  | address
  | label
  | mnemonic
  | labelOrMnemonic
  | constant
  | wordCount
  deriving DecidableEq, Repr

/-- What is missing where a line ends too early. -/
inductive Part
  | instruction
  | address
  | firstRegister
  | secondRegister
  | register
  | inputBuffer
  | inputLength
  | outputBuffer
  | outputLength
  | wordCount
  | constants
  deriving DecidableEq, Repr

/-- The problems of a source text. -/
inductive Kind
  | duplicateLabel (name : String)
  | zeroIndex
  | tooLongLabel (name : String)
  | invalidLine
  | reservedLabel (name : String)
  | expected (category : Category)
  | invalidWordCount
  | unbalancedQuotes
  | outOfCharset
  | undeclaredLabel (name : String)
  | outOfRange (value : String)
  | unnecessaryOperand
  | missing (part : Part)
  deriving DecidableEq, Repr

end Diagnostic

/-- A problem at a place in the source. -/
structure Diagnostic where
  location : Location
  kind : Diagnostic.Kind
  deriving DecidableEq, Repr

namespace Diagnostic

namespace Severity

def text : Severity → String
  | error => "error"
  | message => "message"

end Severity

namespace Category

def text : Category → String
  | space => "whitespace"
  | comma => "','"
  | register => "register"
  | address => "address"
  | label => "label"
  | mnemonic => "instruction"
  | labelOrMnemonic => "label or instruction"
  | constant => "constant"
  | wordCount => "decimal word count"

end Category

namespace Part

def code : Part → Nat
  | instruction => 17
  | address => 18
  | firstRegister => 21
  | secondRegister => 22
  | register => 23
  | inputBuffer => 24
  | inputLength => 25
  | outputBuffer => 26
  | outputLength => 27
  | wordCount => 28
  | constants => 29

def text : Part → String
  | instruction => "instruction"
  | address => "address 'adr'"
  | firstRegister => "register 'r1'"
  | secondRegister => "register 'r2'"
  | register => "register 'r'"
  | inputBuffer => "address 'input buffer'"
  | inputLength => "address 'input length'"
  | outputBuffer => "address 'output buffer'"
  | outputLength => "address 'output length'"
  | wordCount => "decimal 'word count'"
  | constants => "'constant[, constant]'"

end Part

namespace Kind

/-- The stable number of a problem. -/
def code : Kind → Nat
  | duplicateLabel _ => 1
  | zeroIndex => 2
  | tooLongLabel _ => 4
  | invalidLine => 5
  | reservedLabel _ => 6
  | expected _ => 8
  | invalidWordCount => 13
  | unbalancedQuotes => 14
  | outOfCharset => 15
  | undeclaredLabel _ => 16
  | outOfRange _ => 19
  | unnecessaryOperand => 20
  | missing part => part.code

def severity : Kind → Severity
  | unnecessaryOperand => .message
  | _ => .error

def message : Kind → String
  | duplicateLabel name => s!"duplicate label '{name}'"
  | zeroIndex => "GR0 cannot be used as an index register"
  | tooLongLabel name => s!"label '{name}' is longer than 8 characters"
  | invalidLine => "invalid instruction line"
  | reservedLabel name => s!"'{name}' cannot be used as a label name"
  | expected category => category.text ++ " expected"
  | invalidWordCount => "word count must be a non-negative decimal"
  | unbalancedQuotes => "unbalanced single quotes in string constant"
  | outOfCharset => "string constant contains a character outside JIS X 0201"
  | undeclaredLabel name => s!"label '{name}' is not declared"
  | outOfRange value => s!"value {value} is out of the 16-bit range"
  | unnecessaryOperand => "unnecessary operand"
  | missing part => "missing " ++ part.text

end Kind

variable (d : Diagnostic)

def line : Nat := d.location.line

def span : Span := d.location.span

def code : Nat := d.kind.code

def severity : Severity := d.kind.severity

def message : String := d.kind.message

def isError : Bool := d.severity == .error

/-- The diagnostic on a line of its own, as tools exchange it. -/
def text : String :=
  s!"{d.line}:{d.span.start}-{d.span.stop}: {d.severity.text}[{d.code}]: {d.message}"

/-- Whether the problems keep the program from being assembled. -/
def hasErrors (ds : List Diagnostic) : Bool :=
  ds.any isError

end Diagnostic

end Comet
