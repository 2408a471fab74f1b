import RemoteCall.Failure
import RemoteCall.Text.Blank

/-! What a content type says of a body: its media type, and the boundary between its parts. -/

namespace RemoteCall.Multipart

open Text

def mediaType (ct : List Char) : List Char := lowercase (trim ((fields ';' ct).headD []))

def isMultipart (ct : List Char) : Bool := "multipart/".toList.isPrefixOf (mediaType ct)

/-- The parameters after the media type that have a name and a value. -/
def parameters (ct : List Char) : List (List Char × List Char) :=
  ((fields ';' ct).drop 1).filterMap (splitAt? '=')

def unquoted (cs : List Char) : List Char := dropBothWhile (· == '"') (trim cs)

/-- The value of the first parameter named `boundary`, unless it is empty. -/
def boundary (ct : List Char) : Except Breach (List Char) :=
  match (parameters ct).find? fun p => sameIgnoringCase (trim p.1) "boundary".toList with
  | some (_, value) => if unquoted value = [] then .error .noBoundary else .ok (unquoted value)
  | none => .error .noBoundary

end RemoteCall.Multipart
