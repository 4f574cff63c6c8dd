/-!
# Paths

A path is a row of names with slashes between them. It starts at the root if its first character is
a slash, and else in the directory of the run. Slashes may be repeated, a dot stands for the
directory it is in and two dots for the one above. A slash at the end says that the path is meant to
lead to a directory.

Nothing is known of what lies above the directory of the run except that it is there, so a directory
is told by how to get to it: how many levels up, or the root, and then the names down.

## Main definitions

* `Directory`, `Location`: a directory, and a name in one
* `Path.ofString`: a path taken apart
-/

namespace Smalltalk

/-- Where the names that lead to a directory start. -/
inductive Base where
  /-- So many levels above the directory of the run. -/
  | above (levels : Nat)
  | root
deriving DecidableEq

/-- A directory: names, one inside the other, from a base on. -/
structure Directory where
  base : Base
  names : List String
deriving DecidableEq

namespace Directory

/-- The directory of the run. -/
def working : Directory := ⟨.above 0, []⟩

/-- The directory that all others are in. -/
def root : Directory := ⟨.root, []⟩

/-- The directory that this one is in. The root is in itself. -/
def parent : Directory → Directory
  | ⟨.above levels, []⟩ => ⟨.above (levels + 1), []⟩
  | ⟨.root, []⟩ => root
  | ⟨base, name :: names⟩ => ⟨base, (name :: names).dropLast⟩

/-- What a directory of this name inside this one would be. -/
def inside (d : Directory) (name : String) : Directory := ⟨d.base, d.names ++ [name]⟩

/-- A path that leads to the directory and ends in a slash, empty for the directory of the run. -/
def text (d : Directory) : String :=
  let start :=
    match d.base with
    | .above levels => String.join (List.replicate levels "../")
    | .root => "/"
  start ++ String.join (d.names.map (· ++ "/"))

end Directory

/-- A name in a directory, of which there may be a file or not. -/
structure Location where
  directory : Directory
  name : String
deriving DecidableEq

namespace Location

/-- A path that leads there. -/
def text (l : Location) : String := l.directory.text ++ l.name

/-- A file that is always empty and takes all that is written. -/
def nullDevice : Location := ⟨Directory.root.inside "dev", "null"⟩

end Location

/-- A path taken apart. -/
structure Path where
  start : Directory
  names : List String
  /-- Is it meant to lead to a directory? -/
  isClosed : Bool
deriving DecidableEq

namespace Path

/-- The most bytes that a name may have. -/
def longestName : Nat := 255

/-- The most bytes that a path may have. -/
def longestPath : Nat := 4095

/-- Takes a path apart. -/
def ofString (s : String) : Path where
  start := if s.toList.head? = some '/' then .root else .working
  names := (s.splitOn "/").filter (· ≠ "")
  isClosed := s.toList.getLast? = some '/'

end Path

end Smalltalk
