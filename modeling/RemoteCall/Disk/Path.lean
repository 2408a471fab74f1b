import RemoteCall.Text.Blank

/-! Paths of files: names between slashes. -/

namespace RemoteCall.Path

open Text (fields)

def isAbsolute (path : List Char) : Bool := path.head? = some '/'

/-- The names on the way, among which two dots stand for the folder above. -/
def names (path : List Char) : List (List Char) :=
  (fields '/' path).filter fun name => name ≠ [] ∧ name ≠ ['.']

/-- The last name on the way, unless it leads to the folder above. -/
def fileName? (path : List Char) : Option (List Char) :=
  (names path).getLast?.filter fun name => name ≠ ['.', '.']

/-- The path of a name inside a folder; an absolute one leaves the folder. -/
def join (folder name : List Char) : List Char :=
  if isAbsolute name then name
  else if folder = [] ∨ folder.getLast? = some '/' then folder ++ name
  else folder ++ '/' :: name

def parent? (path : List Char) : Option (List Char) :=
  if names path = [] then none
  else
    some ((if isAbsolute path then ['/'] else []) ++ ['/'].intercalate (names path).dropLast)

end RemoteCall.Path
