import Comet.LabelTable
import Comet.Record

/-!
# Resolving names

Every name of an operand is replaced by the address of its label. A name without
an address is reported and left as it is. An address that does not fit in a word
is reported as well, but it does replace the name.

The addresses of a program count its words, so each of them is its own value. A
table that was filled by hand may hold any number of 64 bits. Such an address is
read in two's complement, which makes a difference only in the upper half.
-/

namespace Comet

namespace LabelTable

/-- Records the use of a name by an operand of a record. Unknown names are
passed over. -/
def referBy (r : Record) (t : LabelTable) : Operand → LabelTable
  | .symbol name span => (t.addReference? name r.scope ⟨r.line, span⟩).getD t
  | _ => t

/-- Records the uses of names by a record. -/
def referByRecord (t : LabelTable) (r : Record) : LabelTable :=
  r.operands.foldl (referBy r) t

/-- Records the uses of names by a program. -/
def referByRecords (t : LabelTable) (records : List Record) : LabelTable :=
  records.foldl referByRecord t

end LabelTable

/-- How the address of a label is read as the value of an operand. -/
abbrev AddressReading := Nat → Int

namespace AddressReading

/-- Every address is its own value. -/
def exact : AddressReading := fun address => address

/-- An address of 64 bits is read in two's complement. -/
def signed : AddressReading := fun address => Int.bmod address UInt64.size

theorem signed_of_lt {address : Nat} (h : 2 * address < UInt64.size) :
    signed address = exact address :=
  Int.bmod_eq_of_le_mul_two (by omega) (by omega)

end AddressReading

namespace Operand

variable (reading : AddressReading) (t : LabelTable)

/-- The operand with the address of its label. -/
def resolve (scope : Nat) : Operand → Operand
  | symbol name span =>
    match t.address? name scope with
    | some address => resolved (reading address)
    | none => symbol name span
  | operand => operand

/-- The problem of resolving an operand. -/
def resolveProblem? (line scope : Nat) : Operand → Option Diagnostic
  | symbol name span =>
    match t.address? name scope with
    | some address =>
      if Word.fits (reading address) then none
      else some ⟨⟨line, span⟩, .outOfRange (toString (reading address))⟩
    | none => some ⟨⟨line, span⟩, .undeclaredLabel name⟩
  | _ => none

end Operand

namespace Record

variable (reading : AddressReading) (t : LabelTable) (r : Record)

/-- The record with the addresses of its labels. -/
def resolve : Record := r.mapOperands (Operand.resolve reading t r.scope)

/-- The problems of resolving a record. -/
def resolveProblems : List Diagnostic :=
  r.operands.filterMap (Operand.resolveProblem? reading t r.line r.scope)

end Record

/-- A program with addresses, the labels with all their uses, and the problems
that were found. -/
structure Resolution where
  records : List Record
  labels : LabelTable
  diagnostics : List Diagnostic
  deriving DecidableEq, Repr

namespace Resolution

/-- Resolves the names of a program. -/
def ofRecords (reading : AddressReading) (labels : LabelTable) (records : List Record) :
    Resolution :=
  let labels := labels.referByRecords records
  { records := records.map (Record.resolve reading labels)
    labels
    diagnostics := records.flatMap (Record.resolveProblems reading labels) }

end Resolution

end Comet
