import Comet.CommandLine.Run

/-!
# The program

Runs the command line on the files of the computer.
-/

namespace Comet.CommandLine

/-- The reason why the computer refuses a file. The number of an error may have
either sign. -/
def FileError.ofSystem (e : IO.Error) : FileError :=
  match e with
  | .noFileOrDirectory .. => .notFound
  | .inappropriateType _ code _ =>
    if code.toInt32.toInt.natAbs = 21 then .isDirectory else .notDirectory
  | .resourceExhausted _ code _ =>
    if code.toInt32.toInt.natAbs = 28 then .noSpace else .other (toString e)
  | .invalidArgument _ code _ =>
    if code.toInt32.toInt.natAbs = 36 then .nameTooLong else .other (toString e)
  | e => .other (toString e)

/-- The result of working with the files of the computer. -/
def attempt {α : Type} (action : IO α) : IO (Except FileError α) := do
  try
    return .ok (← action)
  catch e => return .error (.ofSystem e)

/-- The files of the computer. -/
def computer : FileSystem IO where
  read path := attempt (IO.FS.readBinFile path)
  create path := attempt (IO.FS.writeBinFile path .empty)
  write path content := attempt do
    let file ← IO.FS.Handle.mk path .write
    file.write content
    file.flush

end Comet.CommandLine

/-- Assembles the file that the arguments name. -/
def main (arguments : List String) : IO UInt32 := do
  let outcome ← Comet.CommandLine.run Comet.CommandLine.computer arguments
  IO.print outcome.output
  if outcome.misused then IO.eprint ("error: invalid arguments\n\n" ++ Comet.CommandLine.usageText)
  return outcome.exitCode.toUInt32
