import Comet.Assembly
import Comet.Text.Column

/-!
# The listing

A listing shows what every record emits, next to the source line that it comes
from, and then where every label is. Lines and columns count from one here, as
editors count them.
-/

namespace Comet.Listing

/-- An address as a cell of the listing. -/
def addressCell (address : Nat) : String := "0x" ++ Text.Numeral.hex 4 address ++ ":"

/-- The source line of a record, on its first record. -/
def sourceCell (lines : Array String) (r : Record) : Except Fault String :=
  if r.continuation then .ok ""
  else
    match lines[r.line]? with
    | some line => .ok (String.ofList (Text.trimEnd line.toList))
    | none => .error (.noSuchLine r.line)

/-- The row of a record, unless it emits nothing. -/
def recordRow? (lines : Array String) (r : Record) : Except Fault (Option (List String)) :=
  match r.words with
  | .error _ | .ok [] => .ok none
  | .ok words => do
    let source ← sourceCell lines r
    let code := String.intercalate " " (words.map fun w => String.ofList w.hex)
    return some [addressCell r.address, Text.alignRight 4 (toString (r.line + 1)), code, source]

/-- The line of a definition, as a cell of the listing. -/
def definitionCell (otherwise : String) : Option Location → String
  | some l => "line " ++ toString (l.line + 1)
  | none => otherwise

/-- The row of a label with an address. -/
def entryRow (key : LabelTable.Key) (e : LabelTable.Entry) : List String :=
  let scope := match key.scope with
    | some scope => "scope " ++ toString scope
    | none => "global"
  [addressCell e.address, key.name, scope, definitionCell "generated" e.definition]

/-- The row of a label that is redirected. -/
def redirectionRow (labels : LabelTable) (name : String) (r : LabelTable.Redirection) :
    List String :=
  let address := ((labels.address? name r.scope).map addressCell).getD "------:"
  [address, name ++ " -> " ++ r.target.name, "global", definitionCell "" r.definition]

/-- The text of a table: its lines and an empty line. -/
def tableText (lines : List String) : String :=
  String.join (lines.map (· ++ "\n")) ++ "\n"

/-- The table of what the records emit. -/
def recordTable (records : List Record) (lines : List String) : Except Fault String := do
  let rows ← records.mapM (recordRow? lines.toArray)
  let rows := rows.filterMap id
  let widths := Text.tableWidths rows
  return tableText (rows.map (Text.tableLine widths))

/-- The table of the labels. Labels with an address come first, by address; labels
of the same address are ordered by the text of their lines. -/
def labelTable (labels : LabelTable) : String :=
  let entries := labels.entries.map fun (key, e) => (e.address, entryRow key e)
  let redirections := labels.sortedRedirections.map fun (name, r) => redirectionRow labels name r
  let widths := Text.tableWidths (entries.map (·.2) ++ redirections)
  let lines := entries.map fun (address, row) => (address, Text.tableLine widths row)
  let sorted := lines.mergeSort fun a b => a.1 < b.1 || (a.1 == b.1 && a.2 ≤ b.2)
  tableText (sorted.map (·.2) ++ redirections.map (Text.tableLine widths))

/-- The listing of an assembled program. -/
def text (c : Assembly.Compilation) (lines : List String) : Except Fault String := do
  let records ← recordTable c.records lines
  return records ++ labelTable c.labels

end Comet.Listing
