import RemoteCall.Payload
import RemoteCall.Render

/-! What may be asked for on the command line. -/

namespace RemoteCall

inductive Direction
  | jsonToYaml
  | yamlToJson
  deriving DecidableEq

/-- A call of any function: its input as JSON text, the files to send, whom to log in as, and the
folder where attachments go. -/
structure Errand where
  func : String
  input : Option String
  files : List String
  login : Option Login
  folder : String

inductive Command
  | time
  | fortune
  | stats
  | logo (path : Option String)
  | call (e : Errand)
  | convert (d : Direction) (path : Option String)
  | version
  | greeting

structure Order where
  mode : Mode
  command : Command

end RemoteCall
