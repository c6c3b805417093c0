import StoryAtlas.File.Path
import StoryAtlas.Register

/-!
# Files in directories

A disk holds texts and directories, each at a place. A path is followed name by name: every name but
the last has to be a directory, and two dots lead back to the one above. The directory that all
relative paths start from lies in others of which nothing is known but that they are there.

Writing a file makes the directories that its path goes through, also those that it leaves again by
two dots. A place cannot be a file and a directory at once, and this is what a write can fail on.
-/

namespace StoryAtlas

/-- Texts and directories by place, that is by paths in which two dots are in front only. -/
structure Disk where
  files : Register FilePath String := []
  directories : List FilePath := []

/-- Why a file cannot be written. -/
inductive DiskFault where
  /-- The path is a directory. -/
  | isDirectory
  /-- A directory would have to be made where a file is. -/
  | fileExists
  /-- The path goes through a file. -/
  | notDirectory
deriving DecidableEq, Repr

/-- Why a name leads to no directory. -/
inductive Obstacle where
  | missing
  | file
deriving DecidableEq, Repr

namespace FilePath

/-- The place that a path starts from. -/
def start (path : FilePath) : FilePath where
  root := if path.root.isEmpty then "" else "/"

/-- The place lies in nothing that is known: it is the root, where all relative paths start, or
above that. -/
def isOutermost (place : FilePath) : Bool := place.names.all (· == "..")

def child (place : FilePath) (name : String) : FilePath :=
  { place with names := place.names ++ [name] }

/-- The place above; above the root is the root. -/
def up (place : FilePath) : FilePath :=
  if place.isOutermost then if place.root.isEmpty then place.child ".." else place
  else place.parent

/-- Where one more name leads. -/
def go (place : FilePath) (name : String) : FilePath :=
  if name = ".." then place.up else place.child name

end FilePath

namespace Disk

def isDirectory (disk : Disk) (place : FilePath) : Bool :=
  place.isOutermost || disk.directories.contains place

def isFile (disk : Disk) (place : FilePath) : Bool := Register.holds place disk.files

/-- Enters the directory under a name. -/
def enter (disk : Disk) (place : FilePath) (name : String) : Except Obstacle FilePath :=
  let next := place.go name
  if disk.isDirectory next then .ok next
  else if disk.isFile next then .error .file
  else .error .missing

def walk (disk : Disk) (place : FilePath) (names : List String) : Except Obstacle FilePath :=
  names.foldlM disk.enter place

/-- The place of a path, if the path goes through directories only; nothing need be there. -/
def locate (disk : Disk) (path : FilePath) : Except Obstacle FilePath :=
  match path.names.getLast? with
  | none => .ok path.start
  | some name => (disk.walk path.start path.names.dropLast).map fun above => above.go name

def read (disk : Disk) (path : FilePath) : Option String :=
  match disk.locate path with
  | .ok place => Register.get? place disk.files
  | .error _ => none

/-- Two paths lead to one place. -/
def samePlace (disk : Disk) (path other : FilePath) : Bool :=
  match disk.locate path, disk.locate other with
  | .ok place, .ok found => place == found
  | _, _ => false

/-- Makes the directory under a name, unless it is there. -/
def makeDirectory (disk : Disk) (place : FilePath) (name : String) : Except DiskFault Disk :=
  match disk.enter place name with
  | .ok _ => .ok disk
  | .error .file => .error .fileExists
  | .error .missing => .ok { disk with directories := disk.directories ++ [place.go name] }

/-- Makes the directory under some names, of which the last comes first, and before it those that
the way there goes through and misses. -/
def makeWay (start : FilePath) : List String → Disk → Except DiskFault Disk
  | [], disk => .ok disk
  | name :: above, disk =>
    match disk.walk start above.reverse with
    | .ok place => disk.makeDirectory place name
    | .error .file => .error .notDirectory
    | .error .missing => do
      let made ← makeWay start above disk
      match made.walk start above.reverse with
      | .ok place => made.makeDirectory place name
      | .error _ => .error .notDirectory

def write (disk : Disk) (path : FilePath) (text : String) : Except DiskFault Disk := do
  let made ← makeWay path.start path.names.dropLast.reverse disk
  match made.locate path with
  | .ok place =>
    if made.isDirectory place then .error .isDirectory
    else .ok { made with files := Register.put place text made.files }
  | .error _ => .error .notDirectory

/-- Writes after what the file holds already. -/
def append (disk : Disk) (path : FilePath) (text : String) : Except DiskFault Disk :=
  disk.write path ((disk.read path).getD "" ++ text)

/-- Writes files one after the other; one that cannot be written is left out. -/
def ofFiles (files : List (FilePath × String)) : Disk :=
  files.foldl (fun disk (path, text) => (disk.write path text).toOption.getD disk) {}

end Disk

end StoryAtlas
