import Comet.Proofs.Spelling
import Comet.Word
import Mathlib.Data.Nat.Digits.Defs
import Mathlib.Tactic.Ring

/-!
# The values of numerals

A numeral denotes a number by the places of its digits, the last of which counts ones.
`Denotes` says so of the spellings of constants, for any number of digits, and reading one
digit after another gives the number that is denoted (`Denotes.value?_eq`).

A reader that keeps the number in a register of 64 bits has to give up where a digit takes
it out of the register. It may do so before all digits are read, but never wrongly: on every
text it gives the same number, if the register can hold it (`registerValue?_eq`). What fits in
a word is therefore read alike with and without a register.
-/

namespace Comet.Text.Numeral

/-- The digits, each at the place of its value. -/
def digitChars : List Char := "0123456789ABCDEF".toList

/-- The number that digits denote by their places. -/
def positional (base : Nat) (ds : List Char) : Nat :=
  Nat.ofDigits base (ds.reverse.map (digitChars.idxOf ·))

theorem positional_cons (base : Nat) (d : Char) (ds : List Char) :
    positional base (d :: ds) = digitChars.idxOf d * base ^ ds.length + positional base ds := by
  rw [positional, List.reverse_cons, List.map_append, Nat.ofDigits_append, List.length_map,
    List.length_reverse, List.map_singleton, Nat.ofDigits_singleton, Nat.add_comm, Nat.mul_comm]
  rfl

/-- The text is a numeral of the form, and the number is what it denotes. -/
inductive Denotes : ConstantForm → List Char → Int → Prop
  | decimal {ds : List Char} (nonempty : ds ≠ []) (digits : ∀ d ∈ ds, d.isDigit = true) :
      Denotes .decimal ds (positional 10 ds)
  | negative {ds : List Char} (nonempty : ds ≠ []) (digits : ∀ d ∈ ds, d.isDigit = true) :
      Denotes .decimal ('-' :: ds) (-(positional 10 ds : Int))
  | hex {ds : List Char} (nonempty : ds ≠ []) (digits : ∀ d ∈ ds, Token.isHexDigit d = true) :
      Denotes .hex ('#' :: ds) (positional 16 ds)

/-- Every spelling of a number denotes one. -/
theorem exists_denotes {form : ConstantForm} {cs : List Char} (h : Token.IsConstant form cs)
    (hform : form ≠ .string) : ∃ v, Denotes form cs v := by
  cases h with
  | decimal first digits =>
    exact ⟨_, .decimal (List.cons_ne_nil _ _) (List.forall_mem_cons.2 ⟨first, digits⟩)⟩
  | negative nonempty digits => exact ⟨_, .negative nonempty digits⟩
  | hex nonempty digits => exact ⟨_, .hex nonempty digits⟩
  | string => exact absurd rfl hform

/-! ## Reading digit after digit -/

theorem idxOf_digit {d : Nat} (h : d < 16) : digitChars.idxOf (digit d) = d := by
  have hall : ∀ d : Fin 16, digitChars.idxOf (digit d) = d.val := by decide
  exact hall ⟨d, h⟩

theorem digitValue?_digit {base d : Nat} (hd : d < base) (hbase : base ≤ 16) :
    digitValue? base (digit d) = some d := by
  have hall : ∀ base : Fin 17, ∀ d : Fin base, digitValue? base (digit d) = some d.val := by
    decide +kernel
  exact hall ⟨base, by omega⟩ ⟨d, hd⟩

theorem exists_digit_of_isDigit {c : Char} (h : c.isDigit = true) : ∃ d < 10, c = digit d := by
  rw [Char.isDigit, Bool.and_eq_true] at h
  have hlower : 48 ≤ c.toNat := UInt32.le_iff_toNat_le.1 (of_decide_eq_true h.1)
  have hupper : c.toNat ≤ 57 := UInt32.le_iff_toNat_le.1 (of_decide_eq_true h.2)
  have hlt : c.toNat - 48 < 10 := by omega
  refine ⟨c.toNat - 48, hlt, ?_⟩
  rw [digit, if_pos hlt, show '0'.toNat + (c.toNat - 48) = c.toNat from Nat.add_sub_of_le hlower,
    Char.ofNat_toNat]

theorem exists_digit_of_isHexDigit {c : Char} (h : Token.isHexDigit c = true) :
    ∃ d < 16, c = digit d := by
  rw [Token.isHexDigit, Bool.or_eq_true, Bool.and_eq_true] at h
  rcases h with hdigit | hletter
  · obtain ⟨d, hd, rfl⟩ := exists_digit_of_isDigit hdigit
    exact ⟨d, by omega, rfl⟩
  · have hlower : 65 ≤ c.toNat := UInt32.le_iff_toNat_le.1 (of_decide_eq_true hletter.1)
    have hupper : c.toNat ≤ 70 := UInt32.le_iff_toNat_le.1 (of_decide_eq_true hletter.2)
    refine ⟨10 + (c.toNat - 65), by omega, ?_⟩
    rw [digit, if_neg (by omega), Nat.add_sub_cancel_left,
      show 'A'.toNat + (c.toNat - 65) = c.toNat from Nat.add_sub_of_le hlower, Char.ofNat_toNat]

/-- A digit is read as its place among the digits. -/
theorem digitValue?_eq_idxOf {base d : Nat} (hd : d < base) (hbase : base ≤ 16) :
    digitValue? base (digit d) = some (digitChars.idxOf (digit d)) := by
  rw [digitValue?_digit hd hbase, idxOf_digit (by omega)]

/-- What is read before goes up by one place with each digit. -/
theorem digits?_eq_positional {base : Nat} (hbase : base ≤ 16) {ds : List Char}
    (h : ∀ c ∈ ds, ∃ d < base, c = digit d) (acc : Nat) :
    digits? base acc ds = some (acc * base ^ ds.length + positional base ds) := by
  induction ds generalizing acc with
  | nil => simp [digits?, positional]
  | cons c ds ih =>
    obtain ⟨⟨d, hd, rfl⟩, hds⟩ := List.forall_mem_cons.1 h
    rw [digits?, digitValue?_eq_idxOf hd hbase, Option.bind_some, ih hds, positional_cons,
      List.length_cons]
    congr 1
    ring

theorem natural?_eq_positional {base : Nat} (hbase : base ≤ 16) {ds : List Char} (hne : ds ≠ [])
    (h : ∀ c ∈ ds, ∃ d < base, c = digit d) : natural? base ds = some (positional base ds) := by
  rw [natural?, if_neg (by simpa using hne), digits?_eq_positional hbase h, Nat.zero_mul,
    Nat.zero_add]

/-- A numeral that begins with a digit has neither a sign nor a mark. -/
theorem integer?_eq_natural? {base d : Nat} (hd : d < 16) (ds : List Char) :
    integer? base (digit d :: ds) = (natural? base (digit d :: ds)).map Int.ofNat := by
  have hall : ∀ d : Fin 16, digit d ≠ '-' ∧ digit d ≠ '+' := by decide
  obtain ⟨hminus, hplus⟩ := hall ⟨d, hd⟩
  rw [integer?]
  · exact fun _ heq => hminus (List.cons.inj heq).1
  · exact fun _ heq => hplus (List.cons.inj heq).1

/-- Reading a numeral gives the number that it denotes. -/
theorem Denotes.value?_eq {form : ConstantForm} {cs : List Char} {v : Int}
    (h : Denotes form cs v) : value? cs = some v := by
  cases h with
  | decimal nonempty digits =>
    have hdigits := fun c hc => exists_digit_of_isDigit (digits c hc)
    obtain ⟨c, ds, rfl⟩ := List.exists_cons_of_ne_nil nonempty
    obtain ⟨d, hd, rfl⟩ := hdigits c (.head ds)
    have hmark : ∀ d : Fin 16, digit d ≠ '#' := by decide
    have hvalue : value? (digit d :: ds) = integer? 10 (digit d :: ds) := by
      rw [value?]
      exact fun _ heq => hmark ⟨d, by omega⟩ (List.cons.inj heq).1
    rw [hvalue, integer?_eq_natural? (by omega),
      natural?_eq_positional (by decide) nonempty hdigits]
    rfl
  | @negative ds nonempty digits =>
    have hdigits := fun c hc => exists_digit_of_isDigit (digits c hc)
    have hvalue : value? ('-' :: ds) = (natural? 10 ds).map fun n => -(n : Int) := rfl
    rw [hvalue, natural?_eq_positional (by decide) nonempty hdigits]
    rfl
  | hex nonempty digits =>
    have hdigits := fun c hc => exists_digit_of_isHexDigit (digits c hc)
    obtain ⟨c, ds, rfl⟩ := List.exists_cons_of_ne_nil nonempty
    obtain ⟨d, hd, rfl⟩ := hdigits c (.head ds)
    show integer? 16 _ = _
    rw [integer?_eq_natural? hd, natural?_eq_positional (by decide) nonempty hdigits]
    rfl

/-! ## Reading in a register -/

/-- The numbers that a signed register of 64 bits holds. -/
def isHeld (v : Int) : Bool :=
  -9223372036854775808 ≤ v && v ≤ 9223372036854775807

/-- Continues a numeral of value `acc` in a register. Digits count against it if the sign
is negative, and no step may leave the register. -/
def registerDigits? (base : Nat) (sign acc : Int) : List Char → Option Int
  | [] => some acc
  | c :: cs => do
    let d ← digitValue? base c
    let shifted ← (some (acc * base)).filter isHeld
    let next ← (some (shifted + sign * d)).filter isHeld
    registerDigits? base sign next cs

/-- The value of a numeral after its sign, read in a register. -/
def registerNatural? (base : Nat) (sign : Int) (cs : List Char) : Option Int :=
  if cs.isEmpty then none else registerDigits? base sign 0 cs

/-- The value of a numeral with an optional sign, read in a register. -/
def registerInteger? (base : Nat) : List Char → Option Int
  | '-' :: cs => registerNatural? base (-1) cs
  | '+' :: cs => registerNatural? base 1 cs
  | cs => registerNatural? base 1 cs

/-- The value of a numeral of either base, read in a register. -/
def registerValue? : List Char → Option Int
  | '#' :: cs => registerInteger? 16 cs
  | cs => registerInteger? 10 cs

theorem isHeld_iff {v : Int} :
    isHeld v = true ↔ -9223372036854775808 ≤ v ∧ v ≤ 9223372036854775807 := by
  simp [isHeld]

/-- Towards zero no number leaves the register. -/
theorem isHeld_of_le {sign : Int} (hsign : sign = 1 ∨ sign = -1) {m n : Nat} (hle : m ≤ n)
    (h : isHeld (sign * n) = true) : isHeld (sign * m) = true := by
  rw [isHeld_iff] at h ⊢
  rcases hsign with rfl | rfl <;> omega

theorem le_of_digits? {base : Nat} (hbase : 0 < base) {acc n : Nat} {cs : List Char}
    (h : digits? base acc cs = some n) : acc ≤ n := by
  induction cs generalizing acc with
  | nil => exact Nat.le_of_eq (Option.some.inj h)
  | cons c cs ih =>
    obtain ⟨d, -, hrest⟩ := Option.bind_eq_some_iff.1 h
    have hle := ih hrest
    have hmul := Nat.le_mul_of_pos_right acc hbase
    omega

theorem registerDigits?_eq {base : Nat} (hbase : 0 < base) {sign : Int}
    (hsign : sign = 1 ∨ sign = -1) (cs : List Char) {acc : Nat}
    (hacc : isHeld (sign * acc) = true) :
    registerDigits? base sign (sign * acc) cs =
      ((digits? base acc cs).map fun n : Nat => sign * n).filter isHeld := by
  induction cs generalizing acc with
  | nil => exact (Option.filter_some_pos hacc).symm
  | cons c cs ih =>
    rw [registerDigits?, digits?]
    cases digitValue? base c with
    | none => rfl
    | some d =>
      have hshifted : sign * (acc : Int) * base = sign * (acc * base : Nat) := by
        rw [Nat.cast_mul]
        ring
      have hnext :
          sign * ((acc * base : Nat) : Int) + sign * d = sign * (acc * base + d : Nat) := by
        rw [Nat.cast_add]
        ring
      simp only [Option.bind_eq_bind, Option.bind_some]
      rw [hshifted]
      cases hheld : isHeld (sign * (acc * base + d : Nat)) with
      | true =>
        have hshift := isHeld_of_le hsign (Nat.le_add_right (acc * base) d) hheld
        rw [Option.filter_some_pos hshift, Option.bind_some, hnext, Option.filter_some_pos hheld,
          Option.bind_some, ih hheld]
      | false =>
        -- The number only grows from here on, so it is out of the register at the end, too.
        have hrest : ((digits? base (acc * base + d) cs).map fun n : Nat => sign * n).filter
            isHeld = none := by
          refine Option.filter_eq_none_iff.2 fun v hv => ?_
          obtain ⟨n, hn, rfl⟩ := Option.map_eq_some_iff.1 hv
          intro hend
          rw [isHeld_of_le hsign (le_of_digits? hbase hn) hend] at hheld
          cases hheld
        rw [hrest]
        cases hshift : isHeld (sign * (acc * base : Nat)) with
        | true =>
          rw [Option.filter_some_pos hshift, Option.bind_some, hnext,
            Option.filter_some_neg hheld]
          rfl
        | false =>
          rw [Option.filter_some_neg hshift]
          rfl

theorem registerNatural?_eq {base : Nat} (hbase : 0 < base) {sign : Int}
    (hsign : sign = 1 ∨ sign = -1) (cs : List Char) :
    registerNatural? base sign cs =
      ((natural? base cs).map fun n : Nat => sign * n).filter isHeld := by
  have hzero : isHeld (sign * (0 : Nat)) = true := by
    rcases hsign with rfl | rfl <;> decide
  have hdigits := registerDigits?_eq hbase hsign cs hzero
  rw [registerNatural?, natural?]
  split
  · rfl
  · simpa using hdigits

theorem registerInteger?_eq {base : Nat} (hbase : 0 < base) (cs : List Char) :
    registerInteger? base cs = (integer? base cs).filter isHeld := by
  have hplus (cs : List Char) : registerNatural? base 1 cs =
      ((natural? base cs).map Int.ofNat).filter isHeld := by
    rw [registerNatural?_eq hbase (.inl rfl)]
    simp only [Int.one_mul]
    rfl
  fun_cases integer? base cs with
  | case1 cs =>
    rw [registerInteger?, registerNatural?_eq hbase (.inr rfl)]
    simp only [Int.neg_mul, Int.one_mul]
    cases natural? base cs <;> rfl
  | case2 cs => exact hplus cs
  | case3 cs hminus hsign =>
    rw [registerInteger?]
    · exact hplus cs
    · exact hminus
    · exact hsign

/-- In a register a numeral has the same value, if the register holds it, and otherwise
none. -/
theorem registerValue?_eq (cs : List Char) :
    registerValue? cs = (value? cs).filter isHeld := by
  fun_cases value? cs with
  | case1 cs => exact registerInteger?_eq (by decide) cs
  | case2 cs hmark =>
    rw [registerValue?]
    · exact registerInteger?_eq (by decide) cs
    · exact hmark

/-- For words it makes no difference that a register holds more than they do, but not all
numbers. -/
theorem filter_registerValue? (cs : List Char) :
    (registerValue? cs).filter Word.fits = (value? cs).filter Word.fits := by
  have hfits (v : Int) (h : Word.fits v = true) : isHeld v = true := by
    rw [Word.fits_iff] at h
    rw [isHeld_iff]
    omega
  rw [registerValue?_eq]
  cases value? cs with
  | none => rfl
  | some v =>
    cases hv : isHeld v with
    | true => rw [Option.filter_some_pos hv]
    | false =>
      have hnot : Word.fits v = false := by
        refine Bool.eq_false_iff.2 fun h => ?_
        rw [hfits v h] at hv
        cases hv
      rw [Option.filter_some_neg hv, Option.filter_some_neg hnot]
      rfl

end Comet.Text.Numeral
