import RemoteCall.Shape.Written
import RemoteCall.Yaml.Glyph

/-!
The ways in which a call may fail, what kind each is, and how it is told. A server declares a
failure by name; of the names only four are known.
-/

namespace RemoteCall

/-- How a reply may violate the contract between client and server. -/
inductive Breach
  | notMultipart
  | noBoundary
  | noOpening
  | truncated
  | noClosing
  | noHeaderEnd
  | malformedHeader (line : String)
  | contentType (given : String) (status : Nat)
  | severalAnswers
  | malformedAnswer (f : Json.Flaw)
  | answerNotObject
  | malformedError (m : Mismatch)
  | noFilename
  | attachmentCount (n : Nat)
  | other (message : String)

/-- What went wrong. A fault of JSON lies in a text, a mismatch in a value that was read before.
Where the cause lies outside, it is told in words of its own. -/
inductive Failure
  | unauthorized (message : String)
  | info (message : String)
  | notFound (message : String)
  | input (message : String)
  | protocol (breach : Breach)
  | unknown (message : String)
  | transport (message : String)
  | json (fault : Fault)
  | payload (m : Mismatch)
  | yaml (o : Yaml.Obstruction)
  | io (message : String)
  | config (message : String)

inductive FailureKind
  | unauthorized
  | info
  | notFound
  | input
  | protocol
  | unknown
  | transport
  | io
  | encoding
  | config
  deriving DecidableEq

namespace FailureKind

def name : FailureKind → String
  | .unauthorized => "UnauthorizedError"
  | .info => "InfoError"
  | .notFound => "NotFoundError"
  | .input => "InputError"
  | .protocol => "ProtocolError"
  | .unknown => "UnknownError"
  | .transport => "TransportError"
  | .io => "IoError"
  | .encoding => "EncodingError"
  | .config => "ConfigError"

end FailureKind

namespace Fault

def message : Fault → String
  | .flaw f => f.message
  | .mismatch m => m.message

end Fault

namespace Yaml.Obstruction

def message : Obstruction → String
  | .character => "a character is not allowed"
  | .tab => "a tab stands where indentation belongs"
  | .danglingKey => "a key has no colon behind it"
  | .indicator => "a sign stands where it may not"
  | .directive => "a directive is malformed"
  | .anchor => "the name of an anchor is malformed"
  | .tag => "a tag is malformed"
  | .escape => "an escape is unknown"
  | .openScalar => "a quoted text is not closed"
  | .header => "the header of a block text is malformed"
  | .misfit => "the parts do not fit together"
  | .undefinedAnchor => "an alias has no anchor"
  | .undefinedHandle => "the handle of a tag is not defined"
  | .severalDocuments => "there is more than one document"
  | .depth => "the nesting is too deep"
  | .repetition => "too many aliases are followed"
  | .localTag => "a tag has no meaning here"
  | .keyKind => "a key is not a text"
  | .scalarKind => "a value does not fit its tag"
  | .hugeInteger => "a number is too large"

end Yaml.Obstruction

namespace Breach

def message : Breach → String
  | .notMultipart => "The content type is not multipart"
  | .noBoundary => "The multipart content type has no boundary"
  | .noOpening => "The multipart body has no opening boundary"
  | .truncated => "The multipart body is truncated"
  | .noClosing => "The multipart body has no closing boundary"
  | .noHeaderEnd => "A multipart part has no header terminator"
  | .malformedHeader line => "Malformed part header: " ++ line
  | .contentType given status =>
    "The content type is not multipart/form-data (got '" ++ given ++ "', status "
      ++ String.ofList (Numeric.decimalDigits status) ++ ")"
  | .severalAnswers => "There are multiple parts with JSON content"
  | .malformedAnswer f => "The JSON part is malformed: " ++ f.message
  | .answerNotObject => "The answer is not an object"
  | .malformedError m => "The error field is malformed: " ++ m.message
  | .noFilename => "The part does not have a filename"
  | .attachmentCount n =>
    "expected one attachment, got " ++ String.ofList (Numeric.decimalDigits n)
  | .other message => message

end Breach

namespace Failure

def kind : Failure → FailureKind
  | .unauthorized _ => .unauthorized
  | .info _ => .info
  | .notFound _ => .notFound
  | .input _ => .input
  | .protocol _ => .protocol
  | .unknown _ => .unknown
  | .transport _ => .transport
  | .json _ => .encoding
  | .payload _ => .encoding
  | .yaml _ => .encoding
  | .io _ => .io
  | .config _ => .config

def message : Failure → String
  | .unauthorized message => "unauthorized: " ++ message
  | .info message => message
  | .notFound message => "not found: " ++ message
  | .input message => "invalid input: " ++ message
  | .protocol breach => "protocol error: " ++ breach.message
  | .unknown message => "unknown error: " ++ message
  | .transport message => "transport error: " ++ message
  | .json fault => "JSON error: " ++ fault.message
  | .payload m => "JSON error: " ++ m.message
  | .yaml o => "YAML error: " ++ o.message
  | .io message => "I/O error: " ++ message
  | .config message => "configuration error: " ++ message

/-- The cause behind a failure, where it is told apart from the failure itself. -/
def cause? : Failure → Option String
  | .json fault => some fault.message
  | .payload m => some m.message
  | .yaml o => some o.message
  | .io message => some message
  | _ => none

def account (f : Failure) : String :=
  match f.cause? with
  | some cause => f.message ++ ": " ++ cause
  | none => f.message

/-- Whether the session is not, or no longer, valid. -/
def isUnauthorized (f : Failure) : Bool := f.kind = .unauthorized

end Failure

/-! ### Failures declared by a server -/

structure Descriptor where
  name : String
  message : String
  deriving DecidableEq

namespace Descriptor

/-- Stands for a message that is missing, null or empty. -/
def defaultMessage : String := "Unknown error"

def shape : Shape :=
  .record "ErrorDescriptor"
    [.required "name" .text,
     ⟨"message", .textOr defaultMessage, some (.text defaultMessage)⟩]

def toDatum (d : Descriptor) : Datum :=
  .record [("name", .text d.name), ("message", .text d.message)]

def ofDatum? : Datum → Option Descriptor
  | .record [("name", .text name), ("message", .text message)] => some ⟨name, message⟩
  | _ => none

/-- The failure that a server declares. Of a name that is not known the message is not passed on. -/
def failure (d : Descriptor) : Failure :=
  if d.name = "UnauthorizedError" then .unauthorized d.message
  else if d.name = "InfoError" then .info d.message
  else if d.name = "NotFoundError" then .notFound d.message
  else if d.name = "InputError" then .input d.message
  else .unknown ("server reported '" ++ d.name ++ "'")

end Descriptor

end RemoteCall
