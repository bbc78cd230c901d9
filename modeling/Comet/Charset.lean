/-!
# The character set of the machine

Characters are stored as JIS X 0201 codes, one to a word: the printable ASCII
range, with the yen sign at the place of the backslash and the overline at the
place of the tilde, and the half-width katakana. The backslash and the tilde
themselves are accepted as other spellings of the same two codes.
-/

namespace Comet.Charset

/-- The JIS X 0201 code of a character. -/
def code? (c : Char) : Option UInt8 :=
  let n := c.toNat
  if n = 0xA5 then some 0x5C
  else if n = 0x203E then some 0x7E
  else if 0x20 ≤ n ∧ n ≤ 0x7E then some (UInt8.ofNat n)
  else if 0xFF61 ≤ n ∧ n ≤ 0xFF9F then some (UInt8.ofNat (n - 0xFF61 + 0xA1))
  else none

/-- The codes of a text, if every character has one. -/
def encode? (cs : List Char) : Option (List UInt8) :=
  cs.mapM code?

end Comet.Charset
