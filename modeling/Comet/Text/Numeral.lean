/-!
# Numerals

Numbers are read from decimal numerals and from hexadecimal numerals marked by
`#`. Values have no bound here: a numeral of any length denotes an integer, and
what fits in a machine word is decided where the number is used. Reading is
generous, in that a sign may stand before the digits of either kind and
hexadecimal digits may be written in either case. The scanner is stricter.

Hexadecimal digits are printed in upper case.
-/

namespace Comet.Text.Numeral

/-- The value of a digit in bases up to sixteen. -/
def digitValue? (base : Nat) (c : Char) : Option Nat :=
  let value? :=
    if '0' ≤ c ∧ c ≤ '9' then some (c.toNat - '0'.toNat)
    else if 'A' ≤ c ∧ c ≤ 'F' then some (c.toNat - 'A'.toNat + 10)
    else if 'a' ≤ c ∧ c ≤ 'f' then some (c.toNat - 'a'.toNat + 10)
    else none
  value?.filter (· < base)

/-- Continues a numeral of value `acc` with further digits. -/
def digits? (base : Nat) (acc : Nat) : List Char → Option Nat
  | [] => some acc
  | c :: cs => (digitValue? base c).bind fun d => digits? base (acc * base + d) cs

/-- The value of a numeral without a sign, which has at least one digit. -/
def natural? (base : Nat) (cs : List Char) : Option Nat :=
  if cs.isEmpty then none else digits? base 0 cs

/-- The value of a numeral with an optional sign. -/
def integer? (base : Nat) : List Char → Option Int
  | '-' :: cs => (natural? base cs).map fun n => -(n : Int)
  | '+' :: cs => (natural? base cs).map Int.ofNat
  | cs => (natural? base cs).map Int.ofNat

/-- The value of a decimal numeral, or of a hexadecimal one after its mark. -/
def value? : List Char → Option Int
  | '#' :: cs => integer? 16 cs
  | cs => integer? 10 cs

/-- The digit of value `n`, for `n` below sixteen. -/
def digit (n : Nat) : Char :=
  Char.ofNat (if n < 10 then '0'.toNat + n else 'A'.toNat + (n - 10))

/-- The hexadecimal digits of `n`, at least `width` of them. -/
def hex (width n : Nat) : String :=
  let digits := (Nat.toDigits 16 n).map Char.toUpper
  String.ofList (List.replicate (width - digits.length) '0' ++ digits)

/-- The four hexadecimal digits of a number below 65536. -/
def hex4 (n : Nat) : List Char :=
  [digit (n / 4096 % 16), digit (n / 256 % 16), digit (n / 16 % 16), digit (n % 16)]

end Comet.Text.Numeral
