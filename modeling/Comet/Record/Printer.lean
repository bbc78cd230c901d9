import Comet.Record
import Comet.Text.Column

/-!
# Records as source text

A record is printed as a source line: its label, its mnemonic and its operands,
separated by blanks and commas.
-/

namespace Comet

/-- The operands of a body as they are written, with the blank before them. -/
def Body.operandText : Body → String
  | operation _ r1 r2 adr =>
    let parts := r1.toList.map Register.name ++ adr.toList.map Operand.text ++
      r2.toList.map Register.name
    " " ++ String.intercalate "," parts
  | transfer _ buffer length => " " ++ buffer.text ++ "," ++ length.text
  | data value => " " ++ value.text
  | start (some target) => " " ++ target.text
  | start none | finish | labelOnly => ""

/-- The record as a source line. -/
def Record.text (r : Record) : String :=
  Text.alignLeft 8 (r.label.getD "") ++ " " ++ Text.alignLeft 5 r.mnemonic ++ r.body.operandText

end Comet
