/-
A tree of files as it is seen from one of its folders, and the paths that
lead through it. A path is followed name by name: every name on the way but
the last has to be a folder, also one that `..` leaves again.
-/

namespace TapeMachine

/-- A place in the tree: the names that lead to it from the top. -/
abbrev Location := List String

structure Files where
  contents : List (Location × List UInt8)
  /-- Folders, beside those that the files are in. -/
  folders : List Location
  /-- The folder that relative paths begin at. -/
  here : Location
  /-- Whether the top is the root, where absolute paths begin. Above a top
  that is not, nothing is known and no file is found. -/
  rooted : Bool := false

namespace Path

def names (path : String) : List String := path.splitOn "/"

def isAbsolute (path : String) : Bool := path.startsWith "/"

/-- A path without empty names and names of the folder itself. -/
def normalise (path : String) : String :=
  let root :=
    if path.startsWith "//" && !path.startsWith "///" then "//"
    else if isAbsolute path then "/"
    else ""
  let kept := (names path).filter fun n => n ≠ "" && n ≠ "."
  if root = "" && kept.isEmpty then "." else root ++ "/".intercalate kept

def maxNameBytes : Nat := 255
def maxPathBytes : Nat := 4095

/-- Whether a path can name anything: no name and no path may be too long,
and none may hold a null character. -/
def isUsable (path : String) : Bool :=
  path.utf8ByteSize ≤ maxPathBytes && (names path).all (·.utf8ByteSize ≤ maxNameBytes)
    && !path.toList.contains '\x00'

end Path

namespace Files

def isFolder (fs : Files) (l : Location) : Bool :=
  l.isEmpty || fs.folders.any (l.isPrefixOf ·) || fs.contents.any fun f => l.isPrefixOf f.1 && l != f.1

def contentsAt? (fs : Files) (l : Location) : Option (List UInt8) :=
  (fs.contents.find? (·.1 == l)).map (·.2)

/-- Follows names from a place on. -/
def walk (fs : Files) (place : Location) : List String → Option Location
  | [] => some place
  | n :: rest =>
    if !fs.isFolder place then none
    else if n = "" || n = "." then fs.walk place rest
    else if n = ".." then if place.isEmpty && !fs.rooted then none else fs.walk place.dropLast rest
    else fs.walk (place ++ [n]) rest

/-- What the file at a path holds, if the path leads to a file. -/
def read? (fs : Files) (path : String) : Option (List UInt8) :=
  if !Path.isUsable path then none
  else if Path.isAbsolute path && !fs.rooted then none
  else
    (fs.walk (if Path.isAbsolute path then [] else fs.here) (Path.names path)).bind fs.contentsAt?

/-- The folder itself and those around it, from the inside out. -/
def surrounding (l : Location) : List Location := (List.range (l.length + 1)).reverse.map l.take

/-- What the nearest file of this name holds, in this folder or around it. -/
def nearest? (fs : Files) (name : String) : Option (List UInt8) :=
  (surrounding fs.here).findSome? fun l => fs.contentsAt? (l ++ [name])

end Files
end TapeMachine
