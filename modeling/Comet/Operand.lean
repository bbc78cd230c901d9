import Comet.Text.Span
import Comet.Word

/-!
# Operands

An address or a data word of an instruction. It is a number, the name of a label
or a literal; the last two remember where they stand in the source. Assembling a
program replaces literals by names and names by numbers.
-/

namespace Comet

/-- A constant that is written in place of its address, with the words that are
to be stored for it. -/
structure Literal where
  text : String
  words : List Int
  deriving DecidableEq, Repr

/-- An address or a data word. -/
inductive Operand
  | resolved (value : Int)
  | symbol (name : String) (span : Span)
  | literal (literal : Literal) (span : Span)
  deriving DecidableEq, Repr

namespace Operand

/-- Whether the operand is a number. -/
def isResolved : Operand → Bool
  | resolved _ => true
  | _ => false

/-- The operand as source text. A number is written as the word that it is
stored in. -/
def text : Operand → String
  | resolved value => String.ofList ('#' :: (Word.ofValue value).hex)
  | symbol name _ => name
  | literal l _ => l.text

/-- The number of literals that the operand is. -/
def literalCount : Operand → Nat
  | literal _ _ => 1
  | _ => 0

end Operand

end Comet
