import RemoteCall.Multipart.ContentType
import RemoteCall.Text.Pattern

/-! The parts of a body as they were read: headers in their order, and content. -/

namespace RemoteCall.Multipart

structure Part where
  headers : List (String × String)
  body : List UInt8
  deriving DecidableEq

namespace Part

open Text

def header? (p : Part) (name : String) : Option String :=
  (p.headers.find? fun h => sameIgnoringCase h.1.toList name.toList).map Prod.snd

/-- The value of a parameter named `name`, without the quotes around it. -/
def nameValue? (parameter : List Char) : Option (List Char) :=
  (afterStart? "name=".toList (trim parameter)).map (dropBothWhile (· == '"'))

def fieldName? (p : Part) : Option String := do
  let disposition ← p.header? "content-disposition"
  let name ← (fields ';' disposition.toList).findSome? nameValue?
  return String.ofList name

end Part

/-! ### File names -/

/-- A file name between quotes. -/
def filenamePattern : Text.Pattern := [.word "filename=\"".toList, .run, .word ['"']]

/-- The file name of a disposition, where the pattern of one is found once. -/
def filename (disposition : List Char) : Except Breach (List Char) :=
  match filenamePattern.findAll disposition with
  | [[name]] => .ok name
  | _ => .error .noFilename

end RemoteCall.Multipart
