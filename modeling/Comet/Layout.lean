import Comet.Record
import Comet.Tally

/-!
# Layout

Records are laid out one after another, and the pooled data after them. With
scoping, every end of a subroutine closes a scope; without it there is only one.
-/

namespace Comet

namespace Record

/-- The number of scopes that the record closes. -/
def closedScopes (scoping : Bool) (r : Record) : Nat :=
  if scoping && r.body == .finish then 1 else 0

end Record

namespace Layout

/-- The records with their offsets, the first of which is `start`. -/
def place (start : Nat) (records : List Record) : List Record :=
  (Tally.running Record.byteLength start records).map fun (offset, r) => { r with offset }

/-- The records with their scopes. -/
def assignScopes (scoping : Bool) (records : List Record) : List Record :=
  (Tally.running (Record.closedScopes scoping) 1 records).map fun (scope, r) => { r with scope }

/-- The number of scopes of a program. -/
def scopeCount (scoping : Bool) (records : List Record) : Nat :=
  1 + Tally.total (Record.closedScopes scoping) records

/-- The length in bytes of what records emit. -/
def byteLength (records : List Record) : Nat :=
  Tally.total Record.byteLength records

end Layout

/-- A program and the data of its literals with their places. -/
structure Layout where
  records : List Record
  generated : List Record
  deriving DecidableEq, Repr

namespace Layout

/-- Lays out a program and the data of its literals. -/
def ofRecords (scoping : Bool) (records generated : List Record) : Layout :=
  { records := place 0 (assignScopes scoping records)
    generated := place (byteLength records) generated }

end Layout

end Comet
