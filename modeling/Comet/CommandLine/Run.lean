import Comet.CommandLine.Files
import Comet.CommandLine.Log
import Comet.Listing
import Comet.Text.Lines

/-!
# Running the command line

A run reads a source file, assembles it, reports its problems and, if it has no
errors, stores the image. What a run prints is collected in its outcome.
-/

namespace Comet.CommandLine

/-- What a run prints and how it ends. -/
structure Outcome where
  exitCode : UInt8
  output : String
  /-- Set if the arguments make no sense; what is wrong is explained apart from
  the output. -/
  misused : Bool := false
  deriving DecidableEq, Repr

/-- The name and the version of the program. -/
def versionText : String := "casl2 0.1.0\n"

/-- How the program is used. -/
def usageText : String :=
  String.intercalate "\n"
    [ "USAGE:",
      "    casl2 [FLAGS] [OPTIONS] <INPUT>",
      "",
      "FLAGS:",
      "        --gr8        allows GR8 (the stack pointer) as a register operand",
      "    -h, --help       Prints help information",
      "    -d               prints the debug information alongside the assembly to STDOUT",
      "        --scope      gives each START..END block its own label namespace",
      "    -V, --version    Prints version information",
      "    -v               Sets the level of verbosity",
      "",
      "OPTIONS:",
      "    -o <output>      write output to an outfile",
      "",
      "ARGS:",
      "    <INPUT>    Sets the input file to use",
      "" ]

/-- The text of a source file. -/
def decode (content : ByteArray) : Except FileError String :=
  match String.fromUTF8? content with
  | some text => .ok text
  | none => .error .notText

/-- An assembled source file that is to be stored: what has been printed so far and
the image. -/
structure Assembled where
  output : String
  words : List Word
  deriving DecidableEq, Repr

/-- The outcome of a fault, to which no source text leads. -/
def faulty (output : String) : Outcome := { exitCode := 101, output }

/-- Assembles a source file. Without an image the run ends here. -/
def assemble (a : Arguments) (source : String) : Except Outcome Assembled :=
  let shownAll := Message.shownAll a.verbosity
  let lines := Text.lines source
  match Assembly.analyze { gr8 := a.gr8, scoping := a.scoping } lines with
  | .error _ => .error (faulty "")
  | .ok analysis =>
    let steps := Message.ofAnalysis a.scoping lines analysis
    match analysis.compile with
    | .error e =>
      let failure := Message.fatal ("internal assembler error: " ++ e.message)
      .error { exitCode := 1, output := shownAll (steps ++ [failure]) }
    | .ok c =>
      let report := shownAll (steps ++ Message.ofCompilation c ::
        c.diagnostics.map (Message.ofDiagnostic a.input))
      match c.words with
      | none =>
        let failure := Message.fatal s!"assembly of `{a.input}` failed"
        .error { exitCode := 1, output := report ++ shownAll [failure] }
      | some words =>
        if a.listing then
          match Listing.text c lines with
          | .ok listing => .ok { output := report ++ listing, words }
          | .error _ => .error (faulty report)
        else .ok { output := report, words }

section

variable {m : Type → Type} [Monad m] (fs : FileSystem m)

/-- Stores the image of a source file. -/
def store (a : Arguments) (assembled : Assembled) : m Outcome := do
  let path := a.output.getD (Path.imageName a.input)
  let content := ByteArray.mk (Image.toBytes assembled.words).toArray
  let ending (exitCode : UInt8) (message : Message) : Outcome :=
    { exitCode, output := assembled.output ++ message.shown a.verbosity }
  match ← fs.create path with
  | .error e =>
    return ending 1 (.fatal s!"unable to open output file `{path}`: {e.message}")
  | .ok () =>
    match ← fs.write path content with
    | .error e =>
      return ending 1 (.fatal s!"unable to write to output file `{path}`: {e.message}")
    | .ok () =>
      return ending 0
        ⟨.info, .command, s!"wrote {assembled.words.length} word(s) to `{path}`"⟩

/-- Assembles the input file. -/
def runArguments (a : Arguments) : m Outcome := do
  let start := (Message.ofArguments a).shown a.verbosity
  let content ← fs.read a.input
  match content.bind decode with
  | .error e =>
    let failure := Message.fatal s!"unable to read input file `{a.input}`: {e.message}"
    return { exitCode := 1, output := start ++ failure.shown a.verbosity }
  | .ok source =>
    match assemble a source with
    | .error outcome => return { outcome with output := start ++ outcome.output }
    | .ok assembled => store fs a { assembled with output := start ++ assembled.output }

/-- Runs the command line. -/
def run (arguments : List String) : m Outcome :=
  match Arguments.read arguments with
  | .assemble a => runArguments fs a
  | .version => pure { exitCode := 0, output := versionText }
  | .help => pure { exitCode := 0, output := usageText }
  | .misuse => pure { exitCode := 1, output := "", misused := true }

end

end Comet.CommandLine
