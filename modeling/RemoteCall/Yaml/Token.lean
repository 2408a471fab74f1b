/-! The tokens of YAML text. -/

namespace RemoteCall.Yaml

/-- A scalar keeps whether it was written without quotes and not as a block. -/
inductive Token
  | version (major minor : Nat)
  | handle (name lead : String)
  | documentStart
  | documentEnd
  | streamEnd
  | blockSequence
  | blockMapping
  | blockEnd
  | flowSequence
  | flowSequenceEnd
  | flowMapping
  | flowMappingEnd
  | blockEntry
  | flowEntry
  | key
  | value
  | alias (name : String)
  | anchor (name : String)
  | tag (handle suffix : String)
  | scalar (text : String) (plain : Bool)
  deriving DecidableEq

end RemoteCall.Yaml
