/-!
# Arguments of the command line

The arguments name the input and choose how it is assembled. Short options may be
joined, as in `-dvv`, and the output file may follow its option directly, as in
`-oout`. After `--` everything is an input file. A request for the version or for
help is granted as soon as it is met; whether the arguments are complete and
without repetition is decided at their end.
-/

namespace Comet.CommandLine

/-- How the program is to be run. -/
structure Arguments where
  input : String
  output : Option String
  verbosity : Nat
  gr8 : Bool
  scoping : Bool
  listing : Bool
  deriving DecidableEq, Repr

/-- What the arguments ask for. -/
inductive Request
  | assemble (arguments : Arguments)
  | version
  | help
  | misuse
  deriving DecidableEq, Repr

namespace Arguments

/-- The arguments that have been met. Options are counted, because most of them
may be given only once. -/
structure Counts where
  inputs : List String := []
  outputs : List String := []
  /-- How often the output file was asked for, also without naming one. -/
  outputOptions : Nat := 0
  verbose : Nat := 0
  gr8 : Nat := 0
  scoping : Nat := 0
  listing : Nat := 0
  deriving DecidableEq, Repr

namespace Counts

/-- The request of a complete command line. -/
def request (c : Counts) : Request :=
  match c.inputs with
  | [input] =>
    if c.outputs.length = c.outputOptions ∧ c.outputOptions ≤ 1 ∧ c.gr8 ≤ 1 ∧ c.scoping ≤ 1 ∧
        c.listing ≤ 1 then
      .assemble {
        input
        output := c.outputs.head?
        verbosity := c.verbose
        gr8 := c.gr8 == 1
        scoping := c.scoping == 1
        listing := c.listing == 1 }
    else .misuse
  | _ => .misuse

/-- Adds an input file. There can be only one. -/
def addInput (c : Counts) (input : String) : Except Request Counts :=
  if c.inputs.isEmpty then .ok { c with inputs := [input] } else .error .misuse

/-- Adds a long option. A value given to it has no effect. -/
def addLong (c : Counts) (option : List Char) : Except Request Counts :=
  let name := (option.dropWhile (· == '-')).takeWhile (· != '=')
  match String.ofList name with
  | "gr8" => .ok { c with gr8 := c.gr8 + 1 }
  | "scope" => .ok { c with scoping := c.scoping + 1 }
  | "help" => .error .help
  | "version" => .error .version
  | _ => .error .misuse

/-- Adds joined short options. The result says whether the last of them still
needs a value. -/
def addShort (c : Counts) : List Char → Except Request (Counts × Bool)
  | [] => .ok (c, false)
  | 'o' :: value =>
    let c := { c with outputOptions := c.outputOptions + 1 }
    if value.isEmpty then .ok (c, true)
    else
      .ok ({ c with outputs := c.outputs ++ [String.ofList (value.dropWhile (· == '='))] }, false)
  | 'v' :: rest => addShort { c with verbose := c.verbose + 1 } rest
  | 'd' :: rest => addShort { c with listing := c.listing + 1 } rest
  | 'h' :: _ => .error .help
  | 'V' :: _ => .error .version
  | _ => .error .misuse

end Counts

/-- Reads the arguments one by one. If `pending` is set, the last option needs a
value, which must not look like an option. -/
def readFrom (c : Counts) (pending : Bool) : List String → Except Request Counts
  | [] => .ok c
  | argument :: rest =>
    match argument.toList with
    | ['-', '-'] => rest.foldlM Counts.addInput c
    | '-' :: '-' :: option => do
      let c ← c.addLong option
      readFrom c false rest
    | '-' :: option :: options => do
      let (c, pending) ← c.addShort (option :: options)
      readFrom c pending rest
    | _ =>
      if pending then readFrom { c with outputs := c.outputs ++ [argument] } false rest
      else do
        let c ← c.addInput argument
        readFrom c false rest

/-- What a command line asks for. -/
def read (arguments : List String) : Request :=
  match readFrom {} false arguments with
  | .error request => request
  | .ok c => c.request

end Arguments

end Comet.CommandLine
