import RemoteCall.Json.Printer
import RemoteCall.Text.Blank
import RemoteCall.Yaml.Content

/-!
JSON values as YAML text in blocks. Each level is indented by four columns, and the first entry of a
collection inside a list stands on the line of its dash. Text is written plain where it reads back
as the same text, and in double quotes otherwise.
-/

namespace RemoteCall.Yaml

def step : Nat := 4

/-! ### Text -/

def needsEscape (c : Char) : Bool :=
  Text.isControl c || c = '\u2028' || c = '\u2029' || c = '\uFEFF'

/-- The signs that plain text does without, wherever they would stand. -/
def indicators : List Char :=
  [':', '#', '\'', '"', '\x7b', '\x7d', '[', ']', ',', '&', '*', '!', '|', '>', '%', '@', '\x60']

/-- Words that other readers take for truth values. -/
def switchWords : List String :=
  ["yes", "Yes", "YES", "no", "No", "NO", "on", "On", "ON", "off", "Off", "OFF"]

/-- Whether text reads back as the same text without quotes. -/
def isPlainSafe (s : String) : Bool :=
  let cs := s.toList
  !cs.isEmpty && Text.trim cs == cs
    && !(cs.head?.any fun c => c ∈ ['-', '?', '<', '=', '~'])
    && !(cs.any fun c => needsEscape c || c ∈ indicators)
    && s ∉ switchWords
    && (match parse cs with
      | .ok (.string t) => t = s
      | _ => false)

def upperDigit (n : Nat) : Char := (Nat.digitChar n).toUpper

def quotedChar (c : Char) : List Char :=
  if c = '"' then ['\\', '"']
  else if c = '\\' then ['\\', '\\']
  else if c = '\n' then ['\\', 'n']
  else if c = '\t' then ['\\', 't']
  else if c = '\r' then ['\\', 'r']
  else if needsEscape c then
    let n := c.toNat
    ['\\', 'u', upperDigit (n / 4096), upperDigit (n / 256 % 16), upperDigit (n / 16 % 16),
      upperDigit (n % 16)]
  else [c]

def quote (cs : List Char) : List Char := '"' :: cs.flatMap quotedChar ++ ['"']

def textChars (s : String) : List Char := if isPlainSafe s then s.toList else quote s.toList

/-! ### Values -/

def isBlock : Json → Bool
  | .array items => !items.isEmpty
  | .object entries => !entries.isEmpty
  | _ => false

def inlineChars : Json → List Char
  | .null => ['n', 'u', 'l', 'l']
  | .bool true => ['t', 'r', 'u', 'e']
  | .bool false => ['f', 'a', 'l', 's', 'e']
  | .number n => n.chars
  | .string s => textChars s
  | .array _ => ['[', ']']
  | .object _ => ['\x7b', '\x7d']

def padding (indent : Nat) : List Char := List.replicate indent ' '

def line (lead : List Char) (v : Json) : List Char := lead ++ inlineChars v ++ ['\n']

mutual

def blockChars (indent : Nat) : Json → List Char
  | .array items => itemsChars indent items
  | .object entries => entriesChars indent entries
  | v => line (padding indent) v

/-- A block inside a list gives up the indentation of its first line to the dash. -/
def itemsChars (indent : Nat) : List Json → List Char
  | [] => []
  | v :: vs =>
    (if isBlock v then
      padding indent ++ '-' :: padding (step - 1)
        ++ (blockChars (indent + step) v).drop (indent + step)
    else line (padding indent ++ ['-', ' ']) v) ++ itemsChars indent vs

def entriesChars (indent : Nat) : List (String × Json) → List Char
  | [] => []
  | (k, v) :: es =>
    (if isBlock v then
      padding indent ++ textChars k ++ ':' :: '\n' :: blockChars (indent + step) v
    else line (padding indent ++ textChars k ++ [':', ' ']) v) ++ entriesChars indent es

end

def chars (v : Json) : List Char := if isBlock v then blockChars 0 v else line [] v

def text (v : Json) : String := String.ofList (chars v)

end RemoteCall.Yaml
