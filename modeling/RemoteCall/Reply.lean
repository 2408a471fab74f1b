import RemoteCall.Attachment
import RemoteCall.Multipart.Decoder

/-!
Replies: a multipart body with one part of JSON, which has no content type, and any number of
attachments, each of which has one and a file name.
-/

namespace RemoteCall

structure Response where
  status : Nat
  contentType : Option String
  body : List UInt8

/-- What a call yields: its output, and the attachments in the order of the reply. -/
structure Reply where
  output : Json
  attachments : List Attachment

namespace Reply

open Multipart

/-- The attachments and the answer of a list of parts, after an answer that may have come before. -/
def collect : Option Json → List Part → Except Breach (Option Json × List Attachment)
  | answer, [] => .ok (answer, [])
  | answer, p :: ps =>
    match p.header? "content-type" with
    | some type => do
      let name ← filename ((p.header? "content-disposition").getD "").toList
      let (answer, attachments) ← collect answer ps
      return (answer, ⟨p.body, String.ofList name, type⟩ :: attachments)
    | none =>
      match answer with
      | some _ => .error .severalAnswers
      | none =>
        match Json.parseBytes p.body with
        | .ok v => collect (some v) ps
        | .error f => .error (.malformedAnswer f)

def sections (r : Response) : Except Breach (Entries Json × List Attachment) := do
  let ct := r.contentType.getD ""
  if !isMultipart ct.toList then throw (.contentType ct r.status)
  let parts ← decode ct.toList r.body
  match ← collect none parts with
  | (some (.object entries), attachments) => return (entries, attachments)
  | _ => throw .answerNotObject

def declared? (entries : Entries Json) : Except Breach (Option Descriptor) :=
  match Entries.get? entries "error" with
  | none => .ok none
  | some .null => .ok none
  | some v =>
    match Descriptor.shape.strict v with
    | .ok d => .ok (Descriptor.ofDatum? d)
    | .error m => .error (.malformedError m)

/-- The reply that a response carries. A response that violates the contract is no reply, even where
it declares a failure. -/
def ofResponse (r : Response) : Except Failure Reply := do
  let (entries, attachments) ← (sections r).mapError .protocol
  match ← (declared? entries).mapError .protocol with
  | some d => throw d.failure
  | none => return ⟨(Entries.get? entries "output").getD .null, attachments⟩

end Reply

end RemoteCall
