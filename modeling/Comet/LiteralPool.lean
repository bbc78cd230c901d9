import Comet.Record
import Comet.Tally

/-!
# Pooling literals

The words of literals are stored after the program. Each literal gets a name of
its own, in the order in which the literals stand in the program, and is replaced
by that name. Equal literals are not shared. The names are in lower case, so that
no label of a source text has one of them.
-/

namespace Comet

namespace LiteralPool

/-- The name of the literal with the given number. Numbers begin with one. -/
def literalName (n : Nat) : String := "lit" ++ toString n

end LiteralPool

namespace Operand

/-- The operand with the name of its literal, if `n` literals come before it. -/
def pooled (n : Nat) : Operand → Operand
  | literal _ span => symbol (LiteralPool.literalName (n + 1)) span
  | operand => operand

/-- The data of a literal, if `n` literals come before it. The name of the literal
labels its first word. -/
def pooledData (line n : Nat) : Operand → List Record
  | literal l _ =>
    match l.words with
    | [] => []
    | word :: words =>
      Record.pooledWord (some (LiteralPool.literalName (n + 1))) line word ::
        words.map (Record.pooledWord none line)
  | _ => []

end Operand

namespace Body

/-- The body with the names of its literals, if `n` literals come before it. -/
def pooled (n : Nat) : Body → Body
  | operation code r1 r2 adr => operation code r1 r2 (adr.map (Operand.pooled n))
  | transfer code buffer length =>
    transfer code (buffer.pooled n) (length.pooled (n + buffer.literalCount))
  | data value => data (value.pooled n)
  | body => body

end Body

namespace Record

variable (r : Record)

/-- The number of literals of a record. -/
def literalCount : Nat := Tally.total Operand.literalCount r.operands

/-- The record with the names of its literals, if `n` literals come before it. -/
def pooled (n : Nat) : Record := { r with body := r.body.pooled n }

/-- The data of the literals of a record, if `n` literals come before it. -/
def pooledData (n : Nat) : List Record :=
  (Tally.running Operand.literalCount n r.operands).flatMap fun (k, operand) =>
    operand.pooledData r.line k

end Record

/-- A program without literals, the data that they stood for, and the number of
literals that have a name. -/
structure LiteralPool where
  records : List Record
  generated : List Record
  named : Nat
  deriving DecidableEq, Repr

namespace LiteralPool

/-- Pools the literals of a program, if `n` literals have a name already. -/
def ofRecords (n : Nat) (records : List Record) : LiteralPool :=
  let numbered := Tally.running Record.literalCount n records
  { records := numbered.map fun (k, r) => r.pooled k
    generated := numbered.flatMap fun (k, r) => r.pooledData k
    named := n + Tally.total Record.literalCount records }

end LiteralPool

end Comet
