import TileAtlas.Bytes
/-!
# Files and directories

What commands see of a file system: which paths name files, with what bytes, and which name
directories.  A path is a list of names; a dot stands for the directory itself and two dots for the
one above.
-/
namespace TileAtlas

inductive FileEntry where
  | file (content : Bytes)
  | directory

/-- Files and directories by their paths, name by name. -/
abbrev Directory := Std.ExtTreeMap (List String) FileEntry

namespace Directory

/-- Follow one name of a path. -/
def follow (place : List String) (name : String) : List String :=
  if name = "" || name = "." then place
  else if name = ".." then place.dropLast
  else place ++ [name]

/-- What stands between the slashes of a path. -/
def names (path : String) : List String := (path.toList.splitOn '/').map String.ofList

/-- The place that a path leads to. -/
def placeOf (path : String) : List String :=
  (names path).foldl follow (if path.toList.head? = some '/' then ["/"] else [])

/-- Whether a path ends in the name of something. -/
def namesSomething (path : String) : Bool :=
  match ((names path).filter fun name => name != "" && name != ".").getLast? with
  | none => false
  | some name => name != ".."

def notADirectory : String := "Not a directory (os error 20)"

/-- The directories above a place, the highest first. -/
def above (place : List String) : List (List String) :=
  (List.range (place.length - 1)).map fun n => place.take (n + 1)

def entryAt (d : Directory) (path : String) : Option FileEntry :=
  let place := placeOf path
  if place = [] || place = ["/"] then some .directory else d[place]?

/-- Whether a path names a file.  A missing directory on the way there means that it does not; a
file in the place of one is an error. -/
def isFile (d : Directory) (path : String) : Except String Bool :=
  if !namesSomething path then .error s!"{path} does not name a file"
  else
    let onTheWay := (above (placeOf path)).filterMap fun p => d[p]?
    if onTheWay.any (· matches .file _) then .error notADirectory
    else
      match d.entryAt path with
      | some (.file _) => .ok true
      | _ => .ok false

/-- Make a directory if it is missing. -/
def make (d : Directory) (place : List String) : Except String Directory :=
  match d[place]? with
  | none => .ok (d.insert place .directory)
  | some .directory => .ok d
  | some (.file _) => .error notADirectory

/-- Make the directories above a path that are missing. -/
def makeParents (d : Directory) (path : String) : Except String Directory :=
  (above (placeOf path)).foldlM make d

def write (d : Directory) (path : String) (content : Bytes) : Directory :=
  d.insert (placeOf path) (.file content)

end Directory
end TileAtlas
