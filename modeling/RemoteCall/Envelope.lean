import RemoteCall.Failure
import RemoteCall.Multipart.Form

/-!
Requests: a form with the envelope of the call, which names the function, its input and the session,
and one file for each input stream.
-/

namespace RemoteCall

/-- What identifies a session: its token, and the exam that it belongs to. -/
structure Meta where
  token : String
  exam : Option String
  deriving DecidableEq

namespace Meta

def shape : Shape :=
  .record "Meta"
    [.required "token" .text, ⟨"exam", .option .text, some .absent⟩]

def toDatum (m : Meta) : Datum :=
  .record
    [("token", .text m.token),
     ("exam", match m.exam with | some exam => .present (.text exam) | none => .absent)]

def ofDatum? : Datum → Option Meta
  | .record [("token", .text token), ("exam", .present (.text exam))] => some ⟨token, some exam⟩
  | .record [("token", .text token), ("exam", .absent)] => some ⟨token, none⟩
  | _ => none

/-- The token stands before the exam. -/
def toJson (m : Meta) : Json :=
  .object
    [("token", .string m.token),
     ("exam", match m.exam with | some exam => .string exam | none => .null)]

end Meta

structure Envelope where
  func : String
  input : Json
  session : Option Meta

namespace Envelope

def shape : Shape :=
  .record "Envelope"
    [.required "func" .text, .required "input" .any, .required "meta" (.option Meta.shape)]

def toDatum (e : Envelope) : Datum :=
  .record
    [("func", .text e.func), ("input", .any e.input),
     ("meta", match e.session with | some m => .present m.toDatum | none => .absent)]

def ofDatum? : Datum → Option Envelope
  | .record [("func", .text func), ("input", .any input), ("meta", .absent)] =>
    some ⟨func, input, none⟩
  | .record [("func", .text func), ("input", .any input), ("meta", .present m)] =>
    (Meta.ofDatum? m).map fun m => ⟨func, input, some m⟩
  | _ => none

def toJson (e : Envelope) : Json :=
  .object
    [("func", .string e.func), ("input", e.input),
     ("meta", match e.session with | some m => m.toJson | none => .null)]

def field : String := "data"

def formPart (e : Envelope) : Multipart.FormPart := .text field e.toJson.text

end Envelope

/-- A stream of input: the bytes that it yields, and what goes wrong after them. -/
structure Stream where
  body : List UInt8
  fault : Option String

namespace Stream

def ofBytes (bs : List UInt8) : Stream := ⟨bs, none⟩

def read (s : Stream) : Except Failure (List UInt8) :=
  match s.fault with
  | some message => .error (.io message)
  | none => .ok s.body

def type : String := "application/octet-stream"

/-- The name of the file that holds the stream with the given number. -/
def fileName (n : Nat) : String := "file_" ++ String.ofList (Numeric.decimalDigits n)

def formParts (n : Nat) : List Stream → Except Failure (List Multipart.FormPart)
  | [] => .ok []
  | s :: ss => do
    let bytes ← s.read
    let parts ← formParts (n + 1) ss
    return .ofFile (fileName n) (fileName n) type bytes :: parts

end Stream

def requestParts (e : Envelope) (streams : List Stream) :
    Except Failure (List Multipart.FormPart) :=
  (Stream.formParts 0 streams).map fun files => e.formPart :: files

/-- The form of the request for an invocation, and the count after that of its boundary. -/
def buildRequest (stamp count : Nat) (e : Envelope) (streams : List Stream) :
    Except Failure (Multipart.Form × Nat) :=
  (requestParts e streams).map (Multipart.encodeForm stamp count)

end RemoteCall
