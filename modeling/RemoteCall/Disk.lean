import RemoteCall.Disk.Path
import RemoteCall.Text.Utf8

/-!
Files and folders, and what reading and writing do to them. A path is followed name by name, each
of which must stand in a folder.
-/

namespace RemoteCall

inductive DiskFault
  | missing
  | isFolder
  | notFolder
  | exists
  | longName
  | emptyChar
  | notText
  deriving DecidableEq

namespace DiskFault

def message : DiskFault → String
  | .missing => "No such file or directory (os error 2)"
  | .isFolder => "Is a directory (os error 21)"
  | .notFolder => "Not a directory (os error 20)"
  | .exists => "File exists (os error 17)"
  | .longName => "File name too long (os error 36)"
  | .emptyChar => "file name contained an unexpected NUL byte"
  | .notText => "stream did not contain valid UTF-8"

end DiskFault

namespace Disk

/-- A place: the names that lead to it from the root. -/
abbrev Place := List (List Char)

inductive Item
  | file (data : List UInt8)
  | folder
  deriving DecidableEq

end Disk

structure Disk where
  items : List (Disk.Place × Disk.Item)

namespace Disk

/-- The root is always a folder. -/
def item? (d : Disk) (p : Place) : Option Item :=
  if p = [] then some .folder else d.items.lookup p

def set (d : Disk) (p : Place) (i : Item) : Disk :=
  ⟨(p, i) :: d.items.filter fun e => e.1 ≠ p⟩

/-- The name of a file has at most 255 bytes. -/
def fits (name : List Char) : Bool := (Text.Utf8.encode name).length ≤ 255

def walk (d : Disk) : Place → List (List Char) → Except DiskFault Place
  | p, [] => .ok p
  | p, name :: rest =>
    match d.item? p with
    | none => .error .missing
    | some (.file _) => .error .notFolder
    | some .folder =>
      if name = ['.'] then walk d p rest
      else if name = ['.', '.'] then walk d p.dropLast rest
      else if fits name then walk d (p ++ [name]) rest
      else .error .longName

def origin (here : Place) (path : List Char) : Place :=
  if Path.isAbsolute path then [] else here

/-- The names of a path. A slash at the end stands for a single dot. -/
def steps (path : List Char) : List (List Char) :=
  (Text.fields '/' path).filter (· ≠ []) ++ if path.getLast? = some '/' then [['.']] else []

def check (path : List Char) : Except DiskFault PUnit :=
  if path = [] then .error .missing
  else if '\x00' ∈ path then .error .emptyChar
  else .ok ⟨⟩

def find (d : Disk) (here : Place) (path : List Char) : Except DiskFault Item := do
  check path
  let p ← d.walk (origin here path) (steps path)
  match d.item? p with
  | some i => return i
  | none => throw .missing

def write (d : Disk) (here : Place) (path : List Char) (data : List UInt8) :
    Except DiskFault Disk := do
  check path
  let slash := path.getLast? = some '/'
  let names := (Text.fields '/' path).filter (· ≠ [])
  let p ← d.walk (origin here path) names.dropLast
  match d.item? p, names.getLast? with
  | none, _ => throw .missing
  | some (.file _), _ => throw .notFolder
  | some .folder, none => throw .isFolder
  | some .folder, some name => do
    if slash ∨ name = ['.'] ∨ name = ['.', '.'] then throw .isFolder
    if !fits name then throw .longName
    if d.item? (p ++ [name]) = some .folder then throw .isFolder
    return d.set (p ++ [name]) (.file data)

def makeFrom (d : Disk) : Place → List (List Char) → Except DiskFault Disk
  | _, [] => .ok d
  | p, name :: rest =>
    if name = ['.'] then makeFrom d p rest
    else if name = ['.', '.'] then makeFrom d p.dropLast rest
    else if !fits name then .error .longName
    else
      match d.item? (p ++ [name]) with
      | none => makeFrom (d.set (p ++ [name]) .folder) (p ++ [name]) rest
      | some .folder => makeFrom d (p ++ [name]) rest
      | some (.file _) => .error (if rest = [] then .exists else .notFolder)

def makeFolders (d : Disk) (here : Place) (path : List Char) : Except DiskFault Disk := do
  if path = [] then return d
  check path
  d.makeFrom (origin here path) (Path.names path)

def files (d : Disk) : List (Place × List UInt8) :=
  d.items.filterMap fun (p, i) =>
    match i with
    | .file data => some (p, data)
    | .folder => none

end Disk

end RemoteCall
