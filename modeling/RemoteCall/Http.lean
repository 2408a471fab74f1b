import RemoteCall.Reply
import RemoteCall.Url

/-!
HTTP messages: a form on its way to an address, and the response on its way back. A connection
serves one request.
-/

namespace RemoteCall.Http

open Text (afterStart? cut? fields lowercase splitAt?)
open Text.Utf8 (bytes decodeLossy encode)

/-! ### Addresses -/

def address (url : String) : Except String Url :=
  match Url.parse url.toList with
  | some u =>
    if u.isWeb then .ok u else .error ("builder error for url (" ++ u.text ++ ")")
  | none => .error "builder error"

/-- What is told where an address does not answer, or answers with something else. -/
def unreachable (u : Url) : String := "error sending request for url (" ++ u.text ++ ")"

/-- Posts over a connection that carries a request to the place of an address and brings back what
comes of it. -/
def post {m : Type → Type} [Monad m] (carry : Url → Multipart.Form → m (Option Response))
    (url : String) (form : Multipart.Form) : m (Except String Response) :=
  match address url with
  | .error message => pure (.error message)
  | .ok u => do
    match ← carry u form with
    | some r => return .ok r
    | none => return .error (unreachable u)

/-! ### Requests -/

def agent : String := "jutge-api-client/0.1.0"

def decimal (n : Nat) : String := String.ofList (Numeric.decimalDigits n)

def place (u : Url) : String :=
  String.ofList (u.host.getD []) ++ (u.channel.map fun n => ":" ++ decimal n).getD ""

def request (u : Url) (form : Multipart.Form) : List UInt8 :=
  bytes ("POST " ++ String.ofList u.target ++ " HTTP/1.1\r\nHost: " ++ place u
    ++ "\r\nUser-Agent: " ++ agent ++ "\r\nAccept: */*\r\nContent-Type: " ++ form.contentType
    ++ "\r\nContent-Length: " ++ decimal form.body.length ++ "\r\nConnection: close\r\n\r\n")
    ++ form.body

/-! ### Responses -/

abbrev Headers := List (List Char × List Char)

def isBlank (c : Char) : Bool := c = ' ' || c = '\t'

def headers (lines : List (List Char)) : Headers :=
  lines.filterMap fun line =>
    (splitAt? ':' line).map fun (name, value) =>
      (lowercase name, Text.dropBothWhile isBlank value)

/-- The value of a header, unless there is something in it that cannot be seen. -/
def header? (hs : Headers) (name : String) : Option (List Char) :=
  (hs.lookup name.toList).filter fun value =>
    value.all fun c => c = '\t' || (0x20 ≤ c.toNat && c.toNat ≤ 0x7E)

def status? (line : List Char) : Option Nat := do
  let rest ← afterStart? "HTTP/1.".toList line
  Numeric.natOfDigits? 10 ((rest.drop 2).take 3)

/-- The content of a body that comes in chunks, each behind its length. -/
def chunks? : Nat → List UInt8 → Option (List UInt8)
  | 0, _ => none
  | fuel + 1, bs => do
    let (line, rest) ← cut? Multipart.crlf bs
    let n ← Numeric.natOfDigits? 16 ((decodeLossy line).takeWhile Char.isAlphanum)
    if n = 0 then return []
    let rest' ← afterStart? Multipart.crlf (rest.drop n)
    return rest.take n ++ (← chunks? fuel rest')

/-- The body of a response, as long as its headers say, or else to the end of the connection. -/
def body? (status : Nat) (hs : Headers) (bs : List UInt8) : Option (List UInt8) :=
  if status = 204 ∨ status = 304 then some []
  else if (header? hs "transfer-encoding").map lowercase = some "chunked".toList then
    chunks? (bs.length + 1) bs
  else
    match header? hs "content-length" >>= Numeric.natOfDigits? 10 with
    | some n => if bs.length < n then none else some (bs.take n)
    | none => some bs

def response? (bs : List UInt8) : Option Response := do
  let (head, body) ← cut? (Multipart.crlf ++ Multipart.crlf) bs
  let lines := Text.crlfLines (decodeLossy head)
  let status ← status? (lines.headD [])
  let hs := headers (lines.drop 1)
  return ⟨status, (header? hs "content-type").map String.ofList, ← body? status hs body⟩

end RemoteCall.Http
