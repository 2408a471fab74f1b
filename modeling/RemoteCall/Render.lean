import RemoteCall.Json.Parser
import RemoteCall.Yaml.Printer

/-! How values are shown: for people, as JSON or as YAML. -/

namespace RemoteCall

/-- The YAML text of what a JSON text says. -/
def Yaml.ofJsonText (cs : List Char) : Except Json.Flaw String := (Json.parse cs).map Yaml.text

/-- The YAML text of a value, by way of its JSON text. -/
def Yaml.write (v : Json) : Except Json.Flaw String := Yaml.ofJsonText v.chars

inductive Mode
  | human
  | json
  | yaml
  deriving DecidableEq

/-- Text for people stands bare, and every other value as YAML without the end of its last line. -/
def Mode.render : Mode → Json → String
  | .json, v => v.pretty
  | .human, .string s => s
  | _, v => String.ofList (Text.trimEnd (Yaml.chars v))

end RemoteCall
