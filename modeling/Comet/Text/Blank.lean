/-!
# Blank characters

A source line is divided by blanks, and a blank is any character with the
Unicode property `White_Space`, so tabs, no-break spaces and ideographic spaces
separate the parts of a line just as an ordinary space does. The property is a
small closed table, written out here in code point order.
-/

namespace Comet.Text

/-- The characters with the Unicode property `White_Space`. -/
def isBlank (c : Char) : Bool :=
  let n := c.toNat
  (0x09 ≤ n && n ≤ 0x0D) || n == 0x20 || n == 0x85 || n == 0xA0 || n == 0x1680 ||
    (0x2000 ≤ n && n ≤ 0x200A) || n == 0x2028 || n == 0x2029 || n == 0x202F ||
    n == 0x205F || n == 0x3000

/-- Upper-case letters and digits, the characters of identifiers, are no blanks. -/
theorem isBlank_eq_false_of_isAlphanum {c : Char} (h : c.isUpper = true ∨ c.isDigit = true) :
    isBlank c = false := by
  have hn : (65 ≤ c.toNat ∧ c.toNat ≤ 90) ∨ (48 ≤ c.toNat ∧ c.toNat ≤ 57) := by
    rcases h with h | h
    · exact .inl (of_decide_eq_true h)
    · exact .inr (Bool.and_eq_true_iff.1 h |>.imp of_decide_eq_true of_decide_eq_true)
  simp only [isBlank, Bool.or_eq_false_iff, Bool.and_eq_false_iff, decide_eq_false_iff_not,
    beq_eq_false_iff_ne]
  omega

/-- The text without the blanks at its end. -/
def trimEnd (cs : List Char) : List Char :=
  (cs.reverse.dropWhile isBlank).reverse

end Comet.Text
