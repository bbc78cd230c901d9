import Comet.Assembly
import Comet.CommandLine.Arguments

/-!
# Messages of the command line

A message has a level and the name of the part of the program that it comes from.
How many levels are shown depends on the verbosity.
-/

namespace Comet.CommandLine

/-- The levels of messages, the most important first. -/
inductive Level
  | error
  | warn
  | info
  | debug
  deriving DecidableEq, Repr

namespace Level

def name : Level → String
  | error => "ERROR"
  | warn => "WARN"
  | info => "INFO"
  | debug => "DEBUG"

/-- The rank of a level; a verbosity shows the levels up to its own number. -/
def rank : Level → Nat
  | error => 0
  | warn => 1
  | info => 2
  | debug => 3

/-- The last level that a verbosity shows. -/
def ofVerbosity : Nat → Level
  | 0 => error
  | 1 => warn
  | 2 => info
  | _ => debug

end Level

/-- The parts of the program that messages come from. -/
inductive Origin
  | command
  | assembler
  | resolver
  | emitter
  deriving DecidableEq, Repr

namespace Origin

def name : Origin → String
  | command => "casl2"
  | assembler => "casl2::assembler"
  | resolver => "casl2::assembler::resolver"
  | emitter => "casl2::assembler::emitter"

end Origin

/-- A message of the program. -/
structure Message where
  level : Level
  origin : Origin
  text : String
  deriving DecidableEq, Repr

namespace Message

/-- The text that is shown of a message. -/
def shown (verbosity : Nat) (m : Message) : String :=
  if m.level.rank ≤ (Level.ofVerbosity verbosity).rank then
    s!"[{m.origin.name}][{m.level.name}] {m.text}\n"
  else ""

/-- The text that is shown of several messages. -/
def shownAll (verbosity : Nat) (ms : List Message) : String :=
  String.join (ms.map (shown verbosity))

/-- The message that makes a run fail. -/
def fatal (text : String) : Message := ⟨.error, .command, "fatal: " ++ text⟩

/-- The arguments of a run. -/
def ofArguments (a : Arguments) : Message :=
  ⟨.debug, .command, String.intercalate "\n\t"
    [ "Arguments:",
      "Verbosity: " ++ (Level.ofVerbosity a.verbosity).name,
      "GR8: " ++ toString a.gr8,
      "Label scope: " ++ toString a.scoping,
      "Outfile: " ++ a.output.getD "None",
      "Infile: " ++ a.input ]⟩

/-- The steps of an analysis. -/
def ofAnalysis (scoping : Bool) (lines : List String) (a : Assembly.Analysis) : List Message :=
  let bytes := Layout.byteLength a.records + Layout.byteLength a.generated
  [ ⟨.debug, .assembler, s!"parsed {lines.length} line(s) into {a.records.length} record(s)"⟩,
    ⟨.debug, .resolver, s!"pooled {a.generated.length} literal word(s)"⟩,
    ⟨.debug, .resolver,
      s!"program is {bytes / 2} word(s) across {Layout.scopeCount scoping a.records} scope(s)"⟩,
    ⟨.debug, .resolver, s!"registered {a.labels.size} label(s)"⟩ ]

/-- The end of an assembly. -/
def ofCompilation (c : Assembly.Compilation) : Message :=
  match c.words with
  | none => ⟨.info, .assembler,
      s!"not emitting a binary: {c.diagnostics.length} diagnostic(s) reported"⟩
  | some words => ⟨.debug, .emitter, s!"emitted {words.length} word(s)"⟩

/-- A problem of a source file. Editors count lines and columns from one. -/
def ofDiagnostic (path : String) (d : Diagnostic) : Message :=
  { level := if d.isError then .error else .warn
    origin := .command
    text := s!"{path}:{d.line + 1}:{d.span.start + 1}: {d.message} [{d.code}]" }

end Message

end Comet.CommandLine
