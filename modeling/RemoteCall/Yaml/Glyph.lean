/-!
YAML text as glyphs: characters with the places at which they stand. The ends of lines are made
alike here, so that later stages see one character for each.
-/

namespace RemoteCall.Yaml

inductive Obstruction
  | character
  | tab
  | danglingKey
  | indicator
  | directive
  | anchor
  | tag
  | escape
  | openScalar
  | header
  | misfit
  | undefinedAnchor
  | undefinedHandle
  | severalDocuments
  | depth
  | repetition
  | localTag
  | keyKind
  | scalarKind
  | hugeInteger
  deriving DecidableEq

/-- A place in a text: how many characters stand before it, in all and on its line, and how many
lines. -/
structure Mark where
  index : Nat
  line : Nat
  column : Nat
  deriving DecidableEq

structure Glyph where
  char : Char
  mark : Mark
  deriving DecidableEq

def isAllowed (c : Char) : Bool :=
  let n := c.toNat
  n == 9 || n == 10 || n == 13 || (0x20 ≤ n && n ≤ 0x7E) || n == 0x85
    || (0xA0 ≤ n && n ≤ 0xD7FF) || (0xE000 ≤ n && n ≤ 0xFFFD) || 0x10000 ≤ n

def isOtherBreak (c : Char) : Bool := c = '\r' || c = '\u0085'

def isBreak (c : Char) : Bool := c = '\n' || c = '\u2028' || c = '\u2029'

def isBlank (c : Char) : Bool := c = ' ' || c = '\t'

/-- Stands at the end of the text, where no allowed character is the same. -/
def terminator : Char := '\x00'

def isSpace (c : Char) : Bool := isBlank c || isBreak c || c = terminator

def isGap (c : Char) : Bool := isBlank c || isBreak c

namespace Mark

def start : Mark := ⟨0, 0, 0⟩

def next (m : Mark) : Mark := ⟨m.index + 1, m.line, m.column + 1⟩

/-- The start of the next line, past an end of line of the given length. -/
def nextLine (m : Mark) (length : Nat) : Mark := ⟨m.index + length, m.line + 1, 0⟩

end Mark

/-- The glyphs of a text from a given place on, up to the terminator. -/
def glyphsFrom (m : Mark) : List Char → List Glyph
  | [] => [⟨terminator, m⟩]
  | '\r' :: '\n' :: cs => ⟨'\n', m⟩ :: glyphsFrom (m.nextLine 2) cs
  | c :: cs =>
    if isOtherBreak c then ⟨'\n', m⟩ :: glyphsFrom (m.nextLine 1) cs
    else if isBreak c then ⟨c, m⟩ :: glyphsFrom (m.nextLine 1) cs
    else ⟨c, m⟩ :: glyphsFrom m.next cs

def glyphs (cs : List Char) : Except Obstruction (List Glyph) :=
  if cs.all isAllowed then
    .ok (glyphsFrom .start (match cs with | '\uFEFF' :: cs => cs | cs => cs))
  else .error .character

def peek (gs : List Glyph) (n : Nat) : Char :=
  match gs.drop n with
  | g :: _ => g.char
  | [] => terminator

def here (gs : List Glyph) : Mark :=
  match gs with
  | g :: _ => g.mark
  | [] => .start

/-- Whether three of the given sign stand alone at the start of a line. -/
def atDocumentMark (sign : Char) (gs : List Glyph) : Bool :=
  (here gs).column == 0 && peek gs 0 == sign && peek gs 1 == sign && peek gs 2 == sign
    && isSpace (peek gs 3)

end RemoteCall.Yaml
