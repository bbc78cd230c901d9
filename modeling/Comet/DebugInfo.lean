import Comet.LabelTable
import Comet.Record

/-!
# Debug information

Debuggers find the source line of an address in two tables: one of the lines that
emit something, by the address of their first word, and one of the subroutines,
by the address at which they are entered.
-/

namespace Comet

/-- Lines by address, in the order of the addresses. -/
abbrev AddressTable := List (Nat × Nat)

namespace AddressTable

/-- Sets the line of an address. -/
def insert (address line : Nat) : AddressTable → AddressTable
  | [] => [(address, line)]
  | (a, l) :: rest =>
    if address < a then (address, line) :: (a, l) :: rest
    else if address = a then (address, line) :: rest
    else (a, l) :: insert address line rest

/-- The table in which later lines replace earlier ones of the same address. -/
def ofPairs (pairs : List (Nat × Nat)) : AddressTable :=
  pairs.foldl (fun table (address, line) => insert address line table) []

end AddressTable

/-- The source lines of addresses. -/
structure DebugInfo where
  addressLines : AddressTable
  subroutines : AddressTable
  deriving DecidableEq, Repr

namespace DebugInfo

/-- The address of a line, on the first record of a line that emits something. -/
def lineAddress? (r : Record) : Option (Nat × Nat) :=
  if !r.continuation && 0 < r.byteLength then some (r.address, r.line) else none

/-- The address at which a subroutine is entered, on the record that starts it. -/
def entryAddress? (labels : LabelTable) (r : Record) : Option (Nat × Nat) :=
  match r.body with
  | .start (some (.symbol name _)) => (labels.address? name r.scope).map (·, r.line)
  | .start _ => some (r.address, r.line)
  | _ => none

/-- The debug information of a program. -/
def ofRecords (records : List Record) (labels : LabelTable) : DebugInfo :=
  { addressLines := .ofPairs (records.filterMap lineAddress?)
    subroutines := .ofPairs (records.filterMap (entryAddress? labels)) }

end DebugInfo

end Comet
