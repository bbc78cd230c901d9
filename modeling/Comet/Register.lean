/-!
# Registers

The general registers are `GR0` to `GR7`. `GR8` is the stack pointer, which a
program may name only when it is assembled with the matching option; its name is
reserved all the same.
-/

namespace Comet

/-- The general registers and the stack pointer. -/
inductive Register
  | gr0 | gr1 | gr2 | gr3 | gr4 | gr5 | gr6 | gr7 | gr8
  deriving DecidableEq, Repr

namespace Register

/-- All registers in the order of their numbers. -/
def all : List Register := [gr0, gr1, gr2, gr3, gr4, gr5, gr6, gr7, gr8]

theorem mem_all (r : Register) : r ∈ all := by
  cases r <;> decide

/-- The number of a register, which is also its field in a machine word. -/
def number : Register → Nat
  | gr0 => 0
  | gr1 => 1
  | gr2 => 2
  | gr3 => 3
  | gr4 => 4
  | gr5 => 5
  | gr6 => 6
  | gr7 => 7
  | gr8 => 8

theorem number_lt (r : Register) : r.number < 9 := by
  cases r <;> decide

/-- The name by which a program refers to a register. -/
def name : Register → String
  | gr0 => "GR0"
  | gr1 => "GR1"
  | gr2 => "GR2"
  | gr3 => "GR3"
  | gr4 => "GR4"
  | gr5 => "GR5"
  | gr6 => "GR6"
  | gr7 => "GR7"
  | gr8 => "GR8"

/-- The register of the given name. -/
def ofName? (name : String) : Option Register :=
  all.find? (·.name == name)

@[simp] theorem ofName?_name (r : Register) : ofName? r.name = some r := by
  cases r <;> decide

theorem ofName?_eq_some_iff {name : String} {r : Register} :
    ofName? name = some r ↔ name = r.name := by
  constructor
  · intro h
    have hname := List.find?_some h
    exact (beq_iff_eq.1 hname).symm
  · rintro rfl
    exact ofName?_name r

/-- Register names are reserved: no label may take one. -/
def isName (name : String) : Bool :=
  (ofName? name).isSome

theorem isName_eq_false_iff {name : String} :
    isName name = false ↔ ∀ r : Register, name ≠ r.name := by
  rw [isName, Option.isSome_eq_false_iff, Option.isNone_iff_eq_none]
  constructor
  · rintro hnone r rfl
    rw [ofName?_name] at hnone
    cases hnone
  · intro h
    refine Option.eq_none_iff_forall_not_mem.2 fun r hr => ?_
    exact h r (ofName?_eq_some_iff.1 hr)

/-- What is said of a name that no register has. -/
def unknownMessage (name : String) : String :=
  s!"`{name}` is not a register"

/-- The registers that a program may name. The stack pointer is among them only
if `gr8` is set. -/
def available (gr8 : Bool) (r : Register) : Bool :=
  gr8 || r != .gr8

end Register

end Comet
