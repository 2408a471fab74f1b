import RemoteCall.Yaml.Glyph
import RemoteCall.Numeric.Decimal

/-!
The text of scalars: words, the gaps between them, and lines. A single end of line between two
words is read as a space, and of several all but the first are kept.
-/

namespace RemoteCall.Yaml

/-- What a run of blanks and ends of lines between two words is read as. -/
def foldGap (run : List Glyph) : List Char :=
  match (run.map Glyph.char).filter isBreak with
  | [] => run.map Glyph.char
  | ['\n'] => [' ']
  | '\n' :: more => more
  | breaks => breaks

/-- After an escaped end of line blanks are nothing, and further ends of lines are kept. -/
def keepBreaks (run : List Glyph) : List Char := (run.map Glyph.char).filter isBreak

/-! ### Plain scalars -/

def isFlowIndicator (c : Char) : Bool :=
  c = ',' || c = '[' || c = ']' || c = '\x7b' || c = '\x7d'

def plainWord (flow : Bool) : List Glyph → Except Obstruction (List Char × List Glyph)
  | [] => .ok ([], [])
  | g :: gs =>
    let next := peek gs 0
    if isSpace g.char then .ok ([], g :: gs)
    else if flow && g.char = ':' && (isFlowIndicator next || next = '?') then .error .indicator
    else if (g.char = ':' && isSpace next) || (flow && isFlowIndicator g.char) then
      .ok ([], g :: gs)
    else (plainWord flow gs).map fun (word, rest) => (g.char :: word, rest)

/-- A tab that stands where indentation belongs. -/
def abusesTab (indent : Int) (run : List Glyph) : Bool :=
  (run.dropWhile fun g => !isBreak g.char).any fun g =>
    g.char == '\t' && (g.mark.column : Int) < indent

/-- The words of a plain scalar from here on, after a gap that is read as `gap`; whether an end of
line was passed after the last word; and what follows. -/
def plainFrom (flow : Bool) (indent : Int) :
    Nat → List Char → Bool → List Glyph →
      Except Obstruction (List Char × Bool × List Glyph)
  | 0, _, broken, gs => .ok ([], broken, gs)
  | steps + 1, gap, broken, gs => do
    if atDocumentMark '-' gs || atDocumentMark '.' gs || peek gs 0 = '#' then
      return ([], broken, gs)
    let (word, rest) ← plainWord flow gs
    if word.isEmpty then return ([], broken, gs)
    let run := rest.takeWhile fun g => isGap g.char
    let after := rest.dropWhile fun g => isGap g.char
    if abusesTab indent run then throw .tab
    let broken := run.any fun g => isBreak g.char
    if run.isEmpty || (!flow && ((here after).column : Int) < indent) then
      return (gap ++ word, broken, after)
    let (more, broken, rest) ← plainFrom flow indent steps (foldGap run) broken after
    return (gap ++ word ++ more, broken, rest)

/-! ### Quoted scalars -/

def escape? (c : Char) : Option Char :=
  match c with
  | '0' => some '\x00'
  | 'a' => some '\x07'
  | 'b' => some '\x08'
  | 't' => some '\t'
  | '\t' => some '\t'
  | 'n' => some '\n'
  | 'v' => some '\x0b'
  | 'f' => some '\x0c'
  | 'r' => some '\r'
  | 'e' => some '\x1b'
  | ' ' => some ' '
  | '"' => some '"'
  | '/' => some '/'
  | '\\' => some '\\'
  | 'N' => some '\u0085'
  | '_' => some '\u00a0'
  | 'L' => some '\u2028'
  | 'P' => some '\u2029'
  | _ => none

def escapeLength? (c : Char) : Option Nat :=
  match c with
  | 'x' => some 2
  | 'u' => some 4
  | 'U' => some 8
  | _ => none

/-- The character of a number that is no surrogate and not too large. -/
def charOf? (n : Nat) : Option Char :=
  if n < 0xD800 ∨ (0xDFFF < n ∧ n ≤ 0x10FFFF) then some (Char.ofNat n) else none

def escapedNumber? (length : Nat) (gs : List Glyph) : Option Char := do
  let ds := (gs.take length).map Glyph.char
  if ds.length ≠ length then none
  charOf? (← Numeric.natOfDigits? 16 ds)

/-- The word in front inside double quotes, up to a gap or the closing quote; whether an escaped
end of line ended it; and what follows. `passed` digits of an escape are still to be passed. -/
def doubleWord : Nat → List Glyph → Except Obstruction (List Char × Bool × List Glyph)
  | _, [] => .ok ([], false, [])
  | passed + 1, _ :: gs => doubleWord passed gs
  | 0, [g] => .ok ([], false, [g])
  | 0, g :: e :: gs =>
    if isSpace g.char || g.char = '"' then .ok ([], false, g :: e :: gs)
    else if g.char = '\\' then
      if isBreak e.char then .ok ([], true, gs)
      else
        match escape? e.char, escapeLength? e.char with
        | some c, _ => (doubleWord 0 gs).map fun (word, r) => (c :: word, r)
        | none, some length =>
          match escapedNumber? length gs with
          | some c => (doubleWord length gs).map fun (word, r) => (c :: word, r)
          | none => .error .escape
        | none, none => .error .escape
    else (doubleWord 0 (e :: gs)).map fun (word, r) => (g.char :: word, r)

/-- The word in front inside single quotes, where a quote is written twice. -/
def singleWord : List Glyph → List Char × List Glyph
  | [] => ([], [])
  | [g] => ([], [g])
  | g :: h :: gs =>
    if isSpace g.char then ([], g :: h :: gs)
    else if g.char = '\'' then
      if h.char = '\'' then
        let (word, rest) := singleWord gs
        ('\'' :: word, rest)
      else ([], g :: h :: gs)
    else
      let (word, rest) := singleWord (h :: gs)
      (g.char :: word, rest)

/-- The words inside quotes up to the closing one, and what follows it. -/
def quotedFrom (double : Bool) : Nat → List Glyph → Except Obstruction (List Char × List Glyph)
  | 0, _ => .error .openScalar
  | steps + 1, gs => do
    if atDocumentMark '-' gs || atDocumentMark '.' gs then throw .misfit
    if peek gs 0 = terminator then throw .openScalar
    let (word, escaped, rest) ←
      if double then doubleWord 0 gs
      else
        let (word, rest) := singleWord gs
        pure (word, false, rest)
    if peek rest 0 = (if double then '"' else '\'') then return (word, rest.drop 1)
    let run := rest.takeWhile fun g => isGap g.char
    let (more, after) ← quotedFrom double steps (rest.dropWhile fun g => isGap g.char)
    return (word ++ (if escaped then keepBreaks run else foldGap run) ++ more, after)

/-! ### Block scalars -/

inductive Chomp
  | strip
  | clip
  | keep
  deriving DecidableEq

/-- The header of a block scalar after its sign: chomping, indentation where it is given, and what
follows on the line. -/
def blockHeader (gs : List Glyph) : Except Obstruction (Chomp × Nat × List Glyph) := do
  let chomp? (c : Char) : Option Chomp :=
    if c = '+' then some .keep else if c = '-' then some .strip else none
  let digit (gs : List Glyph) : Except Obstruction (Nat × List Glyph) :=
    let c := peek gs 0
    if c = '0' then .error .header
    else if Numeric.isDigit c then .ok (c.toNat - '0'.toNat, gs.drop 1)
    else .ok (0, gs)
  match chomp? (peek gs 0) with
  | some chomp => do
    let (indent, gs) ← digit (gs.drop 1)
    return (chomp, indent, gs)
  | none => do
    let (indent, gs) ← digit gs
    match chomp? (peek gs 0) with
    | some chomp => return (chomp, indent, if indent = 0 then gs else gs.drop 1)
    | none => return (.clip, indent, gs)

/-- Empty lines and the indentation of the line after them: the ends of lines, the deepest
indentation seen, and what follows. No indentation is known where `indent` is zero. -/
def blockBreaks (indent : Nat) : List Glyph → Except Obstruction (List Char × Nat × List Glyph)
  | [] => .ok ([], 0, [])
  | g :: gs =>
    let inside := indent = 0 || g.mark.column < indent
    if inside && g.char = ' ' then blockBreaks indent gs
    else if inside && g.char = '\t' then .error .tab
    else if isBreak g.char then
      (blockBreaks indent gs).map fun (breaks, deepest, rest) =>
        (g.char :: breaks, max g.mark.column deepest, rest)
    else .ok ([], g.mark.column, g :: gs)

/-- The lines of a block scalar from here on. `last` is the end of the line before, `empty` the
ends of empty lines after it, and `indented` says whether that line began with a blank. The result
is the text, the end of its last line, the ends of the empty lines after it, and what follows. -/
def blockLines (literal : Bool) (indent : Nat) :
    Nat → List Char → List Char → Bool → List Glyph →
    Except Obstruction (List Char × List Char × List Char × List Glyph)
  | 0, last, empty, _, gs => .ok ([], last, empty, gs)
  | steps + 1, last, empty, indented, gs => do
    if (here gs).column ≠ indent ∨ peek gs 0 = terminator then return ([], last, empty, gs)
    let blank := isBlank (peek gs 0)
    let join :=
      if !literal && last = ['\n'] && !indented && !blank then
        if empty.isEmpty then [' '] else []
      else last
    let isText (g : Glyph) : Bool := !(isBreak g.char || g.char = terminator)
    let line := (gs.takeWhile isText).map Glyph.char
    let rest := gs.dropWhile isText
    let (ended, rest) := match rest with
      | g :: rest => if isBreak g.char then ([g.char], rest) else ([], g :: rest)
      | [] => ([], [])
    let (breaks, _, rest) ← blockBreaks indent rest
    let (more, last, trailing, rest) ← blockLines literal indent steps ended breaks blank rest
    return (join ++ empty ++ line ++ more, last, trailing, rest)

def blockScalar (literal : Bool) (outer : Int) (gs : List Glyph) :
    Except Obstruction (List Char × List Glyph) := do
  let (chomp, given, gs) ← blockHeader gs
  let gs := gs.dropWhile fun g => isBlank g.char
  let gs :=
    if peek gs 0 = '#' then gs.dropWhile fun g => !(isBreak g.char || g.char = terminator) else gs
  let gs ←
    if isBreak (peek gs 0) then pure (gs.drop 1)
    else if peek gs 0 = terminator then pure gs
    else throw .header
  let fixed : Nat := if given = 0 then 0 else given + outer.toNat
  let (breaks, deepest, gs) ← blockBreaks fixed gs
  let indent := if fixed = 0 then max deepest (max (outer + 1).toNat 1) else fixed
  let (text, last, trailing, gs) ← blockLines literal indent (gs.length + 1) [] breaks false gs
  let ending := match chomp with
    | .strip => []
    | .clip => last
    | .keep => last ++ trailing
  return (text ++ ending, gs)

end RemoteCall.Yaml
