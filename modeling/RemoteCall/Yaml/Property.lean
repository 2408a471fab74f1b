import RemoteCall.Yaml.Scalar
import RemoteCall.Yaml.Token
import RemoteCall.Text.Utf8

/-! Anchors, aliases and tags: what a node may carry in front of its content. -/

namespace RemoteCall.Yaml

def isWord (c : Char) : Bool := c.isAlphanum || c = '_' || c = '-'

def spanWord (gs : List Glyph) : List Char × List Glyph :=
  ((gs.takeWhile fun g => isWord g.char).map Glyph.char, gs.dropWhile fun g => isWord g.char)

def endsName (c : Char) : Bool :=
  isSpace c || c = '?' || c = ':' || c = ',' || c = ']' || c = '\x7d' || c = '%' || c = '@'
    || c = '\x60'

def anchorName (gs : List Glyph) : Except Obstruction (String × List Glyph) :=
  let (name, rest) := spanWord gs
  if name.isEmpty || !endsName (peek rest 0) then .error .anchor
  else .ok (String.ofList name, rest)

/-! ### Tags -/

/-- The characters of a tag, to which an enclosed one adds those that end entries. -/
def isTagChar (enclosed : Bool) (c : Char) : Bool :=
  isWord c || c ∈ [';', '/', '?', ':', '@', '&', '=', '+', '$', '.', '%', '!', '~', '*', '\'',
    '(', ')'] || (enclosed && c ∈ [',', '[', ']'])

/-- The bytes that the characters of a tag stand for: a percent sign and two hexadecimal digits are
one byte. -/
def tagBytes : List Char → Except Obstruction (List UInt8)
  | '%' :: a :: b :: cs =>
    match Numeric.natOfDigits? 16 [a, b] with
    | some n => (tagBytes cs).map (UInt8.ofNat n :: ·)
    | none => .error .tag
  | c :: cs => if c = '%' then .error .tag else (tagBytes cs).map (Text.Utf8.encodeChar c ++ ·)
  | [] => .ok []

def tagText (enclosed : Bool) (gs : List Glyph) :
    Except Obstruction (List Char × List Glyph) := do
  let isPart (g : Glyph) : Bool := isTagChar enclosed g.char
  let bytes ← tagBytes ((gs.takeWhile isPart).map Glyph.char)
  match Text.Utf8.decode? bytes with
  | some cs => return (cs, gs.dropWhile isPart)
  | none => throw .tag

def tagSome (enclosed : Bool) (gs : List Glyph) :
    Except Obstruction (List Char × List Glyph) := do
  let (cs, rest) ← tagText enclosed gs
  if cs.isEmpty then throw .tag
  return (cs, rest)

/-- A tag after its first exclamation mark: its handle, its suffix, and what follows. -/
def tagParts (gs : List Glyph) : Except Obstruction ((String × String) × List Glyph) := do
  if peek gs 0 = '<' then
    let (suffix, rest) ← tagSome true (gs.drop 1)
    if peek rest 0 ≠ '>' then throw .tag
    return (("", String.ofList suffix), rest.drop 1)
  let (name, rest) := spanWord gs
  if peek rest 0 = '!' then
    let (suffix, rest) ← tagSome false (rest.drop 1)
    return ((String.ofList ('!' :: name ++ ['!']), String.ofList suffix), rest)
  let (suffix, rest) ← tagText false rest
  if name.isEmpty && suffix.isEmpty then return (("", "!"), rest)
  return (("!", String.ofList (name ++ suffix)), rest)

/-- A tag after its first exclamation mark, with a space or, inside brackets, a comma behind. -/
def tagToken (flow : Bool) (gs : List Glyph) : Except Obstruction (Token × List Glyph) := do
  let ((handle, suffix), rest) ← tagParts gs
  if isSpace (peek rest 0) || (flow && peek rest 0 = ',') then
    return (.tag handle suffix, rest)
  throw .tag

/-! ### Directives -/

def skipBlanks (gs : List Glyph) : List Glyph := gs.dropWhile fun g => isBlank g.char

def skipComment (gs : List Glyph) : List Glyph :=
  if peek gs 0 = '#' then gs.dropWhile fun g => !(isBreak g.char || g.char = terminator) else gs

/-- A part of a version: one to nine digits. -/
def versionNumber (gs : List Glyph) : Except Obstruction (Nat × List Glyph) :=
  let ds := (gs.takeWhile fun g => Numeric.isDigit g.char).map Glyph.char
  match Numeric.natOfDigits? 10 ds with
  | some n =>
    if ds.length ≤ 9 then .ok (n, gs.dropWhile fun g => Numeric.isDigit g.char)
    else .error .directive
  | none => .error .directive

def directiveToken (name : List Char) (gs : List Glyph) :
    Except Obstruction (Token × List Glyph) := do
  let gs := skipBlanks gs
  if name = ['Y', 'A', 'M', 'L'] then
    let (major, rest) ← versionNumber gs
    if peek rest 0 ≠ '.' then throw .directive
    let (minor, rest) ← versionNumber (rest.drop 1)
    return (.version major minor, rest)
  if name = ['T', 'A', 'G'] then
    if peek gs 0 ≠ '!' then throw .tag
    let (word, rest) := spanWord (gs.drop 1)
    let closed := peek rest 0 = '!'
    if !closed && !word.isEmpty then throw .tag
    let handle := '!' :: word ++ (if closed then ['!'] else [])
    let rest := if closed then rest.drop 1 else rest
    if !isBlank (peek rest 0) then throw .directive
    let (lead, rest) ← tagSome true (skipBlanks rest)
    if !isSpace (peek rest 0) then throw .directive
    return (.handle (String.ofList handle) (String.ofList lead), rest)
  throw .directive

def directive (gs : List Glyph) : Except Obstruction (Token × List Glyph) := do
  let (name, rest) := spanWord gs
  if name.isEmpty || !isSpace (peek rest 0) then throw .directive
  let (token, rest) ← directiveToken name rest
  let rest := skipComment (skipBlanks rest)
  if isBreak (peek rest 0) then return (token, rest.drop 1)
  if peek rest 0 = terminator then return (token, rest)
  throw .directive

end RemoteCall.Yaml
