/-!
# Lines of a text

A line ends with a line feed, and a carriage return before it belongs to the
line's end. The last line need not be ended, and then a carriage return at its
end belongs to it.
-/

namespace Comet.Text

/-- A line that is given backwards, without the carriage return at its end. -/
def dropReturn : List Char → List Char
  | '\r' :: cs => cs
  | cs => cs

/-- Continues a line that is given backwards, after the lines that are done. -/
def linesFrom (done : List String) (line : List Char) : List Char → List String
  | [] =>
    if line.isEmpty then done.reverse else (String.ofList line.reverse :: done).reverse
  | c :: cs =>
    if c = '\n' then linesFrom (String.ofList (dropReturn line).reverse :: done) [] cs
    else linesFrom done (c :: line) cs

/-- The lines of a text. -/
def lines (s : String) : List String := linesFrom [] [] s.toList

end Comet.Text
