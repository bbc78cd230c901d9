import Comet.Text.Numeral

/-!
# Machine words

The machine has words of sixteen bits. A word may be written as an unsigned
number or, below zero, in two's complement, so the values that fit range from
-32768 to 65535 and two of them may have the same word.
-/

namespace Comet

/-- A machine word. -/
abbrev Word := UInt16

namespace Word

/-- The values that can be written for a word. -/
def fits (value : Int) : Bool :=
  -32768 ≤ value && value ≤ 65535

theorem fits_iff {value : Int} : fits value = true ↔ -32768 ≤ value ∧ value ≤ 65535 := by
  simp [fits]

/-- The word of a value, modulo 65536. -/
def ofValue (value : Int) : Word :=
  UInt16.ofNat (value % 65536).toNat

/-- The four hexadecimal digits of a word. -/
def hex (w : Word) : List Char :=
  Text.Numeral.hex4 w.toNat

/-- The two bytes of a word, the high one first. -/
def bytes (w : Word) : List UInt8 :=
  [UInt8.ofNat (w.toNat / 256), UInt8.ofNat (w.toNat % 256)]

end Word

end Comet
