/-!
# Paths

The parts of a path are separated by slashes. A path that begins with a slash is
absolute, any other begins at the working directory. The extension of a name is
what follows its last point, but a name that begins with its only point has none.
-/

namespace Comet.CommandLine.Path

/-- The greatest length of a path, in bytes. -/
def maxBytes : Nat := 4095

/-- The greatest length of a name, in bytes. -/
def maxNameBytes : Nat := 255

/-- Whether a path begins at the root. -/
def isAbsolute (path : String) : Bool :=
  path.toList.head? == some '/'

/-- Whether a path ends with a slash, so that it can lead only to a directory. -/
def endsWithSlash (path : String) : Bool :=
  path.toList.getLast? == some '/'

/-- The parts of a path between slashes. -/
def parts (path : String) : List String :=
  (path.splitOn "/").filter (· != "")

/-- The name of the file that a path leads to, if it ends with a name. A part that
is a single point stays where it is and does not count. -/
def fileName? (path : String) : Option String :=
  match ((parts path).filter (· != ".")).getLast? with
  | some ".." | none => none
  | some name => some name

/-- A file name without its extension and without the point before it. -/
def stem (name : String) : String :=
  match name.toList.reverse.dropWhile (· != '.') with
  | [] | ['.'] => name
  | _ :: before => String.ofList before.reverse

/-- A file name without its extension, but with the point before it. -/
def pointedStem (name : String) : String :=
  match name.toList.reverse.dropWhile (· != '.') with
  | [] | ['.'] => name
  | before => String.ofList before.reverse

/-- A name in which the extension is replaced. It stays without one if what is left
of it leads to a directory: two points are no file name. -/
def withExtension (extension name : String) : String :=
  let left := pointedStem name
  if (fileName? left).isSome then stem left ++ "." ++ extension else left

/-- The name under which the image of a source file is stored: without both of its
extensions, if it has two, and with the extension of an image. -/
def imageName (source : String) : String :=
  withExtension "com" (stem ((fileName? source).getD source))

end Comet.CommandLine.Path
