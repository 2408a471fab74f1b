import RemoteCall.Text.Blank
import RemoteCall.Text.Cut
import RemoteCall.Text.Literal
import RemoteCall.Text.Utf8

/-!
Forms: lists of named fields written as one body of parts between boundaries. A boundary fits a form
where it occurs in none of its parts, and one that fits is always found.
-/

namespace RemoteCall.Multipart

open Text (hexDigits occurs)
open Text.Utf8 (bytes encode)

/-- A field of a form: a text, or a file with its name and content type. -/
structure FormPart where
  name : String
  file : Option (String × String)
  body : List UInt8
  deriving DecidableEq

namespace FormPart

def text (name value : String) : FormPart := ⟨name, none, bytes value⟩

def ofFile (name filename type : String) (body : List UInt8) : FormPart :=
  ⟨name, some (filename, type), body⟩

end FormPart

structure Form where
  contentType : String
  body : List UInt8
  deriving DecidableEq

def crlf : List UInt8 := [13, 10]

def dashes : List UInt8 := [45, 45]

/-- One character of a quoted parameter: a quote is written by number, and an end of line as a
space. -/
def quoteChar (c : Char) : List Char :=
  if c = '"' then ['%', '2', '2'] else if c = '\r' ∨ c = '\n' then [' '] else [c]

def quote (s : String) : List Char := s.toList.flatMap quoteChar

def disposition (p : FormPart) : List Char :=
  "form-data; name=\"".toList ++ quote p.name ++ ['"'] ++
    match p.file with
    | some (filename, _) => "; filename=\"".toList ++ quote filename ++ ['"']
    | none => []

def headerBlock (p : FormPart) : List Char :=
  "Content-Disposition: ".toList ++ disposition p ++
    match p.file with
    | some (_, type) => "\r\nContent-Type: ".toList ++ type.toList
    | none => []

def partBytes (boundary : List Char) (p : FormPart) : List UInt8 :=
  dashes ++ encode boundary ++ crlf ++ encode (headerBlock p) ++ crlf ++ crlf ++ p.body ++ crlf

def encodeWith (boundary : List Char) (parts : List FormPart) : Form where
  contentType := "multipart/form-data; boundary=" ++ String.ofList boundary
  body := parts.flatMap (partBytes boundary) ++ dashes ++ encode boundary ++ dashes ++ crlf

/-! ### Boundaries -/

def candidate (stamp count : Nat) : List Char :=
  "jutge-".toList ++ hexDigits stamp ++ '-' :: hexDigits count

def clashes (boundary : List Char) (p : FormPart) : Bool :=
  occurs (encode boundary) p.body || occurs boundary (headerBlock p)

/-- The number of places at which a boundary could occur. -/
def room (parts : List FormPart) : Nat :=
  parts.foldr (fun p n => p.body.length + (headerBlock p).length + n) 0

/-- The first count from here on whose boundary fits, among so many. -/
def fittingCount (stamp : Nat) (parts : List FormPart) : Nat → Nat → Nat
  | 0, count => count
  | steps + 1, count =>
    if parts.any (clashes (candidate stamp count)) then fittingCount stamp parts steps (count + 1)
    else count

/-- The form with a boundary of the given stamp, and the count after the one used. -/
def encodeForm (stamp count : Nat) (parts : List FormPart) : Form × Nat :=
  let n := fittingCount stamp parts (room parts) count
  (encodeWith (candidate stamp n) parts, n + 1)

end RemoteCall.Multipart
