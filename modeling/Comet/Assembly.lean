import Comet.DebugInfo
import Comet.Image
import Comet.LabelTable.OfRecords
import Comet.Layout
import Comet.LiteralPool
import Comet.Resolution
import Comet.Statement
import Comet.Token.Scan

/-!
# Assembling a program

The source language is CASL II, the assembly language of the machine COMET II. A
program is read line by line, its literals are pooled, its records are laid out,
its labels are collected and its names are resolved. Problems of the source never
stop an assembly; they are collected, so that one run reports as many of them as
possible. Only a program without errors has an image.
-/

namespace Comet

namespace Assembly

/-- How a program is assembled. -/
structure Options where
  /-- Whether programs may name the stack pointer as a register. -/
  gr8 : Bool := false
  /-- Whether every subroutine has a scope of its own. -/
  scoping : Bool := false
  deriving DecidableEq, Repr

/-- Reads a line that is not blank. -/
def readNonblank (gr8 : Bool) (number : Nat) (line : String) : Except Fault Statement.Reading :=
  match Token.scan gr8 number line with
  | .error d => .ok ⟨[], [d]⟩
  | .ok tokens => Statement.read number tokens

/-- Reads a source line. Blank lines are passed over. -/
def readLine (gr8 : Bool) (number : Nat) (line : String) : Except Fault Statement.Reading :=
  if line.toList.all Text.isBlank then .ok ⟨[], []⟩ else readNonblank gr8 number line

/-- Reads a source text. -/
def readLines (gr8 : Bool) (lines : List String) : Except Fault Statement.Reading := do
  let readings ← lines.zipIdx.mapM fun (line, number) => readLine gr8 number line
  return ⟨readings.flatMap (·.records), readings.flatMap (·.diagnostics)⟩

/-- A program before it is encoded. -/
structure Analysis where
  diagnostics : List Diagnostic
  records : List Record
  /-- The data of the literals, which is laid out after the records. -/
  generated : List Record
  labels : LabelTable
  deriving DecidableEq, Repr

/-- Analyses the records of a program. -/
def analyzeRecords (scoping : Bool) (reading : Statement.Reading) : Analysis :=
  let pool := LiteralPool.ofRecords 0 reading.records
  let layout := Layout.ofRecords scoping pool.records pool.generated
  let (labels, duplicates) := LabelTable.ofRecords layout.records layout.generated
  let resolution := Resolution.ofRecords .exact labels layout.records
  { diagnostics := reading.diagnostics ++ duplicates ++ resolution.diagnostics ++
      resolution.records.flatMap Record.check ++ layout.generated.flatMap Record.check
    records := resolution.records
    generated := layout.generated
    labels := resolution.labels }

/-- Analyses a source text. -/
def analyze (options : Options) (lines : List String) : Except Fault Analysis := do
  let reading ← readLines options.gr8 lines
  return analyzeRecords options.scoping reading

namespace Analysis

/-- The image of a program without errors. -/
def image? (a : Analysis) : Except EncodingError (Option (List Word)) :=
  if Diagnostic.hasErrors a.diagnostics then .ok none
  else do
    let words ← Image.ofRecords a.records a.generated a.labels
    return some words

end Analysis

/-- Why an assembly has no result. -/
inductive Failure
  | fault (f : Fault)
  | encoding (e : EncodingError)
  deriving DecidableEq, Repr

/-- An assembled program. -/
structure Compilation where
  diagnostics : List Diagnostic
  /-- All records, the data of the literals last. -/
  records : List Record
  labels : LabelTable
  /-- The image, unless the program has errors. -/
  words : Option (List Word)
  deriving DecidableEq, Repr

namespace Compilation

/-- The debug information of an assembled program. -/
def debugInfo (c : Compilation) : DebugInfo :=
  DebugInfo.ofRecords c.records c.labels

end Compilation

/-- The assembled program of an analysis. -/
def Analysis.compile (a : Analysis) : Except EncodingError Compilation := do
  let words ← a.image?
  return {
    diagnostics := a.diagnostics
    records := a.records ++ a.generated
    labels := a.labels
    words }

/-- Assembles a source text. -/
def compile (options : Options) (lines : List String) : Except Failure Compilation :=
  match analyze options lines with
  | .error f => .error (.fault f)
  | .ok a =>
    match a.compile with
    | .error e => .error (.encoding e)
    | .ok c => .ok c

end Assembly

end Comet
