import Comet.Tally

/-!
# Places in the source

Columns are counted in bytes of the UTF-8 encoding, because that is what editors
and debuggers exchange. `byteLength` is the measure, a `Span` is a half-open
range of columns on one line, and a `Location` adds the line. Lines and columns
count from zero.
-/

namespace Comet

namespace Text

/-- The number of bytes of the UTF-8 encoding. -/
def byteLength (cs : List Char) : Nat :=
  Tally.total Char.utf8Size cs

@[simp] theorem byteLength_nil : byteLength [] = 0 := rfl

@[simp] theorem byteLength_cons (c : Char) (cs : List Char) :
    byteLength (c :: cs) = c.utf8Size + byteLength cs :=
  Tally.total_cons Char.utf8Size c cs

@[simp] theorem byteLength_append (cs ds : List Char) :
    byteLength (cs ++ ds) = byteLength cs + byteLength ds :=
  Tally.total_append Char.utf8Size cs ds

end Text

/-- A half-open range of columns. -/
structure Span where
  start : Nat
  stop : Nat
  deriving DecidableEq, Repr

namespace Span

/-- The place of a name that does not stand in the source. -/
def none : Span := ⟨0, 0⟩

/-- The columns from `start` to the end of the line. A column beyond the end
gives an empty span. -/
def toLineEnd (start lineEnd : Nat) : Span := ⟨start, max lineEnd start⟩

/-- The columns that `cs` occupies when it is written from column `start` on. -/
def ofText (start : Nat) (cs : List Char) : Span := ⟨start, start + Text.byteLength cs⟩

end Span

/-- A span on a numbered line. -/
structure Location where
  line : Nat
  span : Span
  deriving DecidableEq, Repr

end Comet
