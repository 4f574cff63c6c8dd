import Smalltalk.CommandLine.Path
import Smalltalk.Image.Format

/-!
# Files

The files that a run can reach, as a map from locations to bytes. To follow a path is to enter one
directory after the other; all but the last of its names have to be directories.

Opening a file for writing empties it, or makes it, before anything is written. There is no way to
make a directory, and what would be one if it existed cannot be opened for writing.

## Main definitions

* `Files.read`, `Files.reaches`: the bytes at a path, and whether there is anything at all
* `Files.create`, `Files.put`: opening for writing, and writing
-/

namespace Smalltalk

/-- What a path leads to. -/
inductive Target where
  | directory (d : Directory)
  /-- A name that is not a directory. There may be a file or nothing. -/
  | file (l : Location)
deriving DecidableEq

/-- Files, and the directories that are known besides those above the run. -/
structure Files where
  entries : List (Location × List UInt8)
  directories : List Directory := [Directory.root.inside "dev"]

namespace Files

/-- Some files in the directory of the run. -/
def ofList (files : List (String × List UInt8)) : Files where
  entries := files.map fun (name, bytes) => (⟨.working, name⟩, bytes)

/-- The names of all files in the directory of the run. -/
def names (files : Files) : List String :=
  files.entries.filterMap fun (l, _) => if l.directory = .working then some l.name else none

/-- The bytes of a file. -/
def get? (files : Files) (l : Location) : Option (List UInt8) :=
  if l = .nullDevice then some [] else files.entries.lookup l

/-- Gives a file new contents. -/
def put (files : Files) (l : Location) (bytes : List UInt8) : Files :=
  if l = .nullDevice then files
  else if files.entries.any (·.1 = l) then
    { files with entries := files.entries.map fun e => if e.1 = l then (l, bytes) else e }
  else { files with entries := files.entries ++ [(l, bytes)] }

/-- Follows names from a directory on. -/
def walk (files : Files) (d : Directory) : List String → Except FileError Target
  | [] => .ok (.directory d)
  | name :: names =>
    if name = "." then files.walk d names
    else if name = ".." then files.walk d.parent names
    else if files.directories.contains (d.inside name) then files.walk (d.inside name) names
    else if names.isEmpty then .ok (.file ⟨d, name⟩)
    else if name.utf8ByteSize > Path.longestName then .error .nameTooLong
    else if (files.get? ⟨d, name⟩).isSome then .error .notDirectory
    else .error .notFound

/-- What a path leads to. -/
def resolve (files : Files) (path : String) : Except FileError Target :=
  if path = "" then .error .notFound
  else if path.utf8ByteSize > Path.longestPath then .error .nameTooLong
  else files.walk (Path.ofString path).start (Path.ofString path).names

/-- Reads a file. -/
def read (files : Files) (path : String) : Except FileError (List UInt8) := do
  match ← files.resolve path with
  | .directory _ => .error .isDirectory
  | .file l =>
    if l.name.utf8ByteSize > Path.longestName then .error .nameTooLong
    else
      match files.get? l with
      | none => .error .notFound
      | some bytes => if (Path.ofString path).isClosed then .error .notDirectory else .ok bytes

/-- Is there anything at the end of a path? -/
def reaches (files : Files) (path : String) : Bool :=
  match files.read path with
  | .ok _ => true
  | .error e => e = .isDirectory

/-- Opens a file for writing: it is there afterwards, and empty. Answers where it is. -/
def create (files : Files) (path : String) : Except FileError (Location × Files) := do
  match ← files.resolve path with
  | .directory _ => .error .isDirectory
  | .file l =>
    if (Path.ofString path).isClosed then .error .isDirectory
    else if l.name.utf8ByteSize > Path.longestName then .error .nameTooLong
    else .ok (l, files.put l [])

/-- Takes note of a file that is known to be at the end of some names: all but the last of them are
directories. -/
def note (files : Files) (d : Directory) (bytes : List UInt8) : List String → Files
  | [] => files
  | [name] => files.put ⟨d, name⟩ bytes
  | name :: names =>
    if name = "." then files.note d bytes names
    else if name = ".." then files.note d.parent bytes names
    else
      let files := { files with directories := d.inside name :: files.directories }
      files.note (d.inside name) bytes names

end Files

end Smalltalk
