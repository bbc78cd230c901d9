import Comet.LabelTable
import Comet.Record

/-!
# The labels of a program

The label of a subroutine is global; all other labels belong to their scope. The
first declaration of a label wins, and later ones are reported. The labels of
pooled data are global too. If a subroutine names its entry, its label is
redirected there, and the entry has to be a label of its own scope.
-/

namespace Comet.LabelTable

/-- A label table with the problems that were found on the way. -/
abbrev Reported := LabelTable × List Diagnostic

/-- Whether the label of a record is taken. The label of a subroutine must not
be global already. -/
def isTaken (t : LabelTable) (name : String) (r : Record) : Bool :=
  match r.body with
  | .start _ => t.isGlobal name || t.isDeclaredIn name r.scope
  | _ => t.isDeclaredIn name r.scope

/-- The table with the label of a record. -/
def addLabel (t : LabelTable) (name : String) (r : Record) : LabelTable :=
  match r.body with
  | .start (some (.symbol target _)) => t.redirect name target r.scope (some r.labelLocation)
  | .start _ => t.addGlobal name r.address r.scope (some r.labelLocation)
  | _ => t.addLocal name r.address r.scope (some r.labelLocation)

/-- Declares the label of a record, unless it is taken. -/
def declare (state : Reported) (r : Record) : Reported :=
  match r.label with
  | none => state
  | some name =>
    if state.1.isTaken name r then
      (state.1, state.2 ++ [⟨r.labelLocation, .duplicateLabel name⟩])
    else (state.1.addLabel name r, state.2)

/-- Declares the label of pooled data. -/
def declareGenerated (t : LabelTable) (r : Record) : LabelTable :=
  match r.label with
  | none => t
  | some name => t.addGlobal name r.address r.scope none

/-- Records the use of an entry by the start of its subroutine. -/
def referToEntry (state : Reported) (r : Record) : Reported :=
  match r.body with
  | .start (some (.symbol name span)) =>
    match state.1.referTo? (.inScope name r.scope) ⟨r.line, span⟩ with
    | some t => (t, state.2)
    | none => (state.1, state.2 ++ [⟨⟨r.line, span⟩, .undeclaredLabel name⟩])
  | _ => state

/-- The labels of a program and of the data of its literals. -/
def ofRecords (records generated : List Record) : Reported :=
  let (t, diagnostics) := records.foldl declare (.empty, [])
  records.foldl referToEntry (generated.foldl declareGenerated t, diagnostics)

end Comet.LabelTable
