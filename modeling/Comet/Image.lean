import Comet.LabelTable
import Comet.Record.Encoding

/-!
# The program image

An image begins with a header of eight words. The first of them is the address at
which execution begins and the others are zero. The words of the program follow,
and then those of its literals. In a file every word takes two bytes, the high
byte first.
-/

namespace Comet.Image

/-- The number of words of the header. -/
def headerLength : Nat := 8

/-- The address at which execution begins: that of the label of the first record,
seen from the first scope. A program that begins without a label begins at its
first word. -/
def entryPoint (records : List Record) (labels : LabelTable) : Except EncodingError Word :=
  match records.head?.bind (·.label) with
  | none => .ok 0
  | some name =>
    match labels.address? name 1 with
    | some address =>
      if address < 65536 then .ok (UInt16.ofNat address) else .error (.noEntryPoint name)
    | none => .error (.noEntryPoint name)

/-- The words of records. -/
def code (records : List Record) : Except EncodingError (List Word) := do
  let words ← records.mapM Record.words
  return words.flatten

/-- The image of a program and of the data of its literals. -/
def ofRecords (records generated : List Record) (labels : LabelTable) :
    Except EncodingError (List Word) := do
  let entry ← entryPoint records labels
  let words ← code (records ++ generated)
  return entry :: List.replicate (headerLength - 1) 0 ++ words

/-- The bytes of an image. -/
def toBytes (words : List Word) : List UInt8 :=
  words.flatMap Word.bytes

end Comet.Image
