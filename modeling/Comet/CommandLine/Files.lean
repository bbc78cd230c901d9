import Comet.Assoc
import Comet.CommandLine.Path

/-!
# Files

The command line reads one file and writes another. It does so through a
`FileSystem`, so that it can run on the files of the computer as well as on a
`Directory`, which holds its files as values.

A path leads from directory to directory, part by part, and the first part that
leads nowhere decides what is wrong with it.
-/

namespace Comet.CommandLine

/-- Why a file cannot be read or written. -/
inductive FileError
  | notFound
  | notDirectory
  | isDirectory
  | noSpace
  | nameTooLong
  | outOfMemory
  | notText
  | other (message : String)
  deriving DecidableEq, Repr

namespace FileError

def message : FileError → String
  | notFound => "No such file or directory (os error 2)"
  | notDirectory => "Not a directory (os error 20)"
  | isDirectory => "Is a directory (os error 21)"
  | noSpace => "No space left on device (os error 28)"
  | nameTooLong => "File name too long (os error 36)"
  | outOfMemory => "out of memory"
  | notText => "stream did not contain valid UTF-8"
  | other message => message

end FileError

/-- Reading and writing files by path. -/
structure FileSystem (m : Type → Type) where
  read : String → m (Except FileError ByteArray)
  /-- Makes an empty file, in place of the one that may be there. -/
  create : String → m (Except FileError Unit)
  /-- Fills a file that has been created. -/
  write : String → ByteArray → m (Except FileError Unit)

/-- The files of a working directory without subdirectories. -/
abbrev Directory := List (String × ByteArray)

namespace Directory

/-- A directory of the tree to which the working directory belongs. -/
inductive Place
  | working
  /-- A directory above the working directory. -/
  | above
  | root
  | devices
  | temporary
  deriving DecidableEq, Repr

/-- The directory above another. Nothing is above the root. -/
def Place.parent : Place → Place
  | .working | .above => .above
  | .root | .devices | .temporary => .root

/-- What is found under a name. -/
inductive Entry
  | directory (place : Place)
  | file (content : ByteArray)
  /-- The device that is empty and forgets what is written to it. -/
  | null
  /-- The device that has no end and no space. -/
  | full

variable (d : Directory)

/-- What a directory holds under a name. Outside the working directory only that
is known which every computer has. -/
def entry? (place : Place) (name : String) : Option Entry :=
  match place, name with
  | .working, name => (Assoc.get? name d).map .file
  | .root, "dev" => some (.directory .devices)
  | .root, "tmp" => some (.directory .temporary)
  | .devices, "null" => some .null
  | .devices, "full" => some .full
  | _, _ => none

/-- What a directory holds under a name, unless the name is too long to ask. -/
def find (place : Place) (name : String) : Except FileError (Option Entry) :=
  if name.utf8ByteSize ≤ Path.maxNameBytes then .ok (d.entry? place name)
  else .error .nameTooLong

/-- The directory to which a part of a path leads. -/
def enter (place : Place) (part : String) : Except FileError Place :=
  if part = "." then .ok place
  else if part = ".." then .ok place.parent
  else do
    match ← d.find place part with
    | some (.directory inner) => .ok inner
    | some _ => .error .notDirectory
    | none => .error .notFound

/-- Where a path leads. -/
inductive Target
  /-- The path ends with points or at the root. -/
  | directory
  /-- The path ends with a name, which may be free. -/
  | named (place : Place) (name : String)
  deriving DecidableEq, Repr

/-- Where a path leads. -/
def locate (path : String) : Except FileError Target :=
  if path.isEmpty then .error .notFound
  else if Path.maxBytes < path.utf8ByteSize then .error .nameTooLong
  else do
    let parts := Path.parts path
    let start := if Path.isAbsolute path then Place.root else Place.working
    let place ← parts.dropLast.foldlM d.enter start
    match parts.getLast? with
    | none | some "." | some ".." => .ok .directory
    | some name => .ok (.named place name)

/-- The content of a file. -/
def read (path : String) : Except FileError ByteArray := do
  match ← d.locate path with
  | .directory => .error .isDirectory
  | .named place name =>
    match ← d.find place name with
    | none => .error .notFound
    | some (.directory _) => .error .isDirectory
    | some entry =>
      if Path.endsWithSlash path then .error .notDirectory
      else
        match entry with
        | .full => .error .outOfMemory
        | .file content => .ok content
        | _ => .ok .empty

/-- Where a file can be created. A slash behind its name asks for a directory, and
files are not created as such. -/
def creatable (path : String) : Except FileError (Place × String) := do
  match ← d.locate path with
  | .directory => .error .isDirectory
  | .named place name =>
    if Path.endsWithSlash path then .error .isDirectory
    else
      match ← d.find place name with
      | some (.directory _) => .error .isDirectory
      | _ => .ok (place, name)

/-- The directory with a file in place of the one that may be there. Files outside
the working directory are not kept. -/
def put (place : Place) (name : String) (content : ByteArray) : Directory :=
  if place = .working then Assoc.insert name content d else d

/-- The directory after a file has been created. -/
def create (path : String) : Except FileError Directory := do
  let (place, name) ← d.creatable path
  return d.put place name .empty

/-- The directory after a file has been filled. -/
def write (path : String) (content : ByteArray) : Except FileError Directory := do
  let (place, name) ← d.creatable path
  match ← d.find place name with
  | some .full => .error .noSpace
  | _ => .ok (d.put place name content)

/-- Replaces the directory, if there is no error. -/
def replace (f : Directory → Except FileError Directory) :
    StateM Directory (Except FileError Unit) := do
  match f (← get) with
  | .ok d =>
    set d
    return .ok ()
  | .error e => return .error e

/-- The file system that consists of a directory. -/
def fileSystem : FileSystem (StateM Directory) where
  read path := do return (← get).read path
  create path := replace fun d => d.create path
  write path content := replace fun d => d.write path content

/-- The files that are new or differ from those of an earlier directory. -/
def changes (earlier later : Directory) : List (String × ByteArray) :=
  later.filter fun (name, content) => Assoc.get? name earlier != some content

end Directory

end Comet.CommandLine
