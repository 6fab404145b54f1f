/-! # Directories

A tree of files held in memory, for sessions that write files and read them back.
-/
namespace Bimatrix

/-- The places below the root, each with the content of a file, or without one for a directory. -/
structure Directory where
  places : List (List String × Option ByteArray) := []

namespace Directory

def find? (d : Directory) (base : List String) : Option (Option ByteArray) :=
  if base = [] then some none else (d.places.find? fun p => p.1 = base).map Prod.snd

def isDirectory (d : Directory) (base : List String) : Bool :=
  match d.find? base with
  | some none => true
  | _ => false

/-- One step of a path from a directory.  An empty name or a point stays, two points go up but not
above the root. -/
def enter (d : Directory) (base : List String) (name : String) : Option (List String) :=
  if !d.isDirectory base then none
  else if name = "" ∨ name = "." then some base
  else if name = ".." then if base = [] then none else some base.dropLast
  else some (base ++ [name])

/-- The names of a path that starts at the root of the tree.  A path has at most 4095 octets. -/
def names? (path : String) : Option (List String) :=
  if 4095 < path.utf8ByteSize then none
  else
    match path.splitOn "/" with
    | "" :: _ => none
    | names => some names

def read? (d : Directory) (path : String) : Option ByteArray := do
  let names ← names? path
  let place ← names.foldlM d.enter []
  (d.find? place).join

def isNewName (name : String) : Bool :=
  name != "" && name != "." && name != ".." && !name.toList.contains '\x00' &&
    name.utf8ByteSize ≤ 255

/-- The tree with a file's content, unless its directory is missing or its name is a directory's. -/
def write? (d : Directory) (path : String) (content : ByteArray) : Option Directory := do
  let names ← names? path
  let name ← names.getLast?
  let place ← names.dropLast.foldlM d.enter []
  if d.isDirectory place && isNewName name && !d.isDirectory (place ++ [name]) then
    some ⟨(place ++ [name], some content) ::
      d.places.filter fun p => decide (p.1 ≠ place ++ [name])⟩
  else none

def addDirectory (d : Directory) (base : List String) : List String → Directory
  | [] => d
  | name :: names =>
    let place := base ++ [name]
    let d := if (d.find? place).isSome then d else ⟨(place, none) :: d.places⟩
    d.addDirectory place names

def add (d : Directory) (path : String) (content : ByteArray) : Directory :=
  let names := path.splitOn "/"
  let d := d.addDirectory [] (names.dropLast.filter fun name => name != "" && name != ".")
  (d.write? path content).getD d

end Directory

end Bimatrix
