/-!
# Columns of text

Text in columns is padded with spaces. Widths count characters.
-/

namespace Comet.Text

/-- Spaces that widen a text to `width` characters. -/
def padding (width : Nat) (s : String) : String :=
  String.ofList (List.replicate (width - s.length) ' ')

/-- The text at the left of a column. -/
def alignLeft (width : Nat) (s : String) : String := s ++ padding width s

/-- The text at the right of a column. -/
def alignRight (width : Nat) (s : String) : String := padding width s ++ s

/-- The width of the widest text. -/
def maxWidth (cells : List String) : Nat :=
  cells.foldl (fun width cell => max width cell.length) 0

/-- One line of a table: every cell but the last is widened to its column, and a
space divides the columns. -/
def tableLine : List Nat → List String → String
  | width :: widths, cell :: next :: cells =>
    alignLeft width cell ++ " " ++ tableLine widths (next :: cells)
  | _, cells => String.join cells

/-- The widths of the columns of a table. -/
def tableWidths (rows : List (List String)) : List Nat :=
  let columns := rows.foldl (fun n row => max n row.length) 0
  (List.range columns).map fun i => maxWidth (rows.map fun row => row.getD i "")

end Comet.Text
