import RemoteCall.Yaml.Property

/-!
Tokens of YAML text. Whether a scalar is a key shows only at the colon behind it, so the lexer
remembers where a key may have begun and puts the token of the key there afterwards.
-/

namespace RemoteCall.Yaml

/-- A place where a key may have begun: how many tokens stand before it, and whether nothing else
than a key can stand there. -/
structure Candidate where
  required : Bool
  position : Nat
  mark : Mark

/-- `made` holds the tokens so far, the latest first; `outer` the possible keys of the brackets
around, the innermost first; `fresh` says whether a key may begin here. -/
structure Lexer where
  rest : List Glyph
  made : List Token
  indent : Int
  indents : List Int
  candidate : Option Candidate
  outer : List (Option Candidate)
  fresh : Bool

namespace Lexer

def start (gs : List Glyph) : Lexer := ⟨gs, [], -1, [], none, [], true⟩

def inFlow (s : Lexer) : Bool := !s.outer.isEmpty

def mark (s : Lexer) : Mark := here s.rest

def column (s : Lexer) : Nat := s.mark.column

def push (s : Lexer) (t : Token) : Lexer := { s with made := t :: s.made }

def insert (s : Lexer) (position : Nat) (t : Token) : Lexer :=
  let later := s.made.length - position
  { s with made := s.made.take later ++ t :: s.made.drop later }

def pass (s : Lexer) (n : Nat) : Lexer := { s with rest := s.rest.drop n }

/-! ### Keys -/

def forget (s : Lexer) : Except Obstruction Lexer :=
  match s.candidate with
  | some k => if k.required then .error .danglingKey else .ok { s with candidate := none }
  | none => .ok s

def remember (s : Lexer) : Except Obstruction Lexer :=
  if s.fresh then
    s.forget.map fun s =>
      let required := !s.inFlow && s.indent = s.column
      { s with candidate := some ⟨required, s.made.length, s.mark⟩ }
  else .ok s

/-- A key stands on one line, and its colon within 1024 characters. -/
def isStale (m : Mark) (k : Candidate) : Bool :=
  k.mark.line < m.line || k.mark.index + 1024 < m.index

def dropStale (m : Mark) : Option Candidate → Except Obstruction (Option Candidate)
  | none => .ok none
  | some k =>
    if isStale m k then if k.required then .error .danglingKey else .ok none
    else .ok (some k)

/-- Forgets the possible keys that the place in front is too far from. -/
def expire (s : Lexer) : Except Obstruction Lexer := do
  let outer ← s.outer.mapM (dropStale s.mark)
  let candidate ← dropStale s.mark s.candidate
  return { s with candidate, outer }

/-! ### Indentation -/

/-- Opens a block at a deeper column, by a token behind the first `position` tokens. -/
def roll (s : Lexer) (column position : Nat) (t : Token) : Lexer :=
  if s.inFlow || (column : Int) ≤ s.indent then s
  else { s.insert position t with indent := column, indents := s.indent :: s.indents }

def deeper (column indent : Int) : List Int → Nat × Int × List Int
  | [] => (0, indent, [])
  | outer :: rest =>
    if column < indent then
      let (n, indent, indents) := deeper column outer rest
      (n + 1, indent, indents)
    else (0, indent, outer :: rest)

def unroll (s : Lexer) (column : Int) : Lexer :=
  if s.inFlow then s
  else
    let (n, indent, indents) := deeper column s.indent s.indents
    { s with made := List.replicate n .blockEnd ++ s.made, indent, indents }

/-! ### Steps -/

/-- Passes over blanks, comments and ends of lines. A tab counts as a blank where no key may
begin. -/
def skip : List Glyph → Bool → Bool → List Glyph × Bool
  | [], _, fresh => ([], fresh)
  | g :: gs, flow, fresh =>
    if g.mark.index = 0 && g.char = '\uFEFF' then skip gs flow fresh
    else if g.char = ' ' || (g.char = '\t' && (flow || !fresh)) then skip gs flow fresh
    else if isBreak g.char then skip gs flow (fresh || !flow)
    else (g :: gs, fresh)

def skipLines : Nat → List Glyph → Bool → Bool → List Glyph × Bool
  | 0, gs, _, fresh => (gs, fresh)
  | steps + 1, gs, flow, fresh =>
    let (gs, fresh) := skip gs flow fresh
    if peek gs 0 = '#' then skipLines steps (skipComment gs) flow fresh else (gs, fresh)

def skipGaps (s : Lexer) : Lexer :=
  let (rest, fresh) := skipLines s.rest.length s.rest s.inFlow s.fresh
  { s with rest, fresh }

def close (s : Lexer) : Except Obstruction Lexer :=
  (s.unroll (-1)).forget.map fun s => { s with fresh := false }.push .streamEnd

/-- At the start of a document or a directive nothing is open and no key may begin. -/
def margin (s : Lexer) : Except Obstruction Lexer :=
  (s.unroll (-1)).forget.map fun s => { s with fresh := false }

/-- A bracket that opens may itself begin a key. -/
def openFlow (s : Lexer) (t : Token) : Except Obstruction Lexer :=
  s.remember.map fun s =>
    ({ s with candidate := none, outer := s.candidate :: s.outer, fresh := true }.pass 1).push t

def closeFlow (s : Lexer) (t : Token) : Except Obstruction Lexer :=
  s.forget.map fun s =>
    let s := match s.outer with
      | [] => s
      | k :: outer => { s with candidate := k, outer }
    ({ s with fresh := false }.pass 1).push t

def flowEntry (s : Lexer) : Except Obstruction Lexer :=
  s.forget.map fun s => ({ s with fresh := true }.pass 1).push .flowEntry

def begin (s : Lexer) (t : Token) : Except Obstruction Lexer :=
  if s.inFlow then .ok s
  else if s.fresh then .ok (s.roll s.column s.made.length t)
  else .error .indicator

def blockEntry (s : Lexer) : Except Obstruction Lexer := do
  let s ← (← s.begin .blockSequence).forget
  return ({ s with fresh := true }.pass 1).push .blockEntry

def key (s : Lexer) : Except Obstruction Lexer := do
  let s ← (← s.begin .blockMapping).forget
  return ({ s with fresh := !s.inFlow }.pass 1).push .key

/-- A colon makes a key of what was remembered; with nothing remembered the key is empty. -/
def value (s : Lexer) : Except Obstruction Lexer :=
  match s.candidate with
  | some k =>
    let s := (s.insert k.position .key).roll k.mark.column k.position .blockMapping
    .ok (({ s with candidate := none, fresh := false }.pass 1).push .value)
  | none =>
    (s.begin .blockMapping).map fun s =>
      ({ s with fresh := !s.inFlow }.pass 1).push .value

/-- What may begin a key and is none itself: `read` reads it after `n` characters. -/
def item (s : Lexer) (n : Nat) (read : List Glyph → Except Obstruction (Token × List Glyph)) :
    Except Obstruction Lexer := do
  let s ← s.remember
  let (t, rest) ← read (s.rest.drop n)
  return { s with rest, fresh := false }.push t

def quoted (s : Lexer) (double : Bool) : Except Obstruction Lexer :=
  s.item 1 fun gs => do
    let (cs, rest) ← quotedFrom double (gs.length + 1) gs
    return (.scalar (String.ofList cs) false, rest)

def plain (s : Lexer) : Except Obstruction Lexer := do
  let s ← s.remember
  let (cs, broken, rest) ← plainFrom s.inFlow (s.indent + 1) s.rest.length [] false s.rest
  return { s with rest, fresh := broken }.push (.scalar (String.ofList cs) true)

def block (s : Lexer) (literal : Bool) : Except Obstruction Lexer := do
  let s ← s.forget
  let (cs, rest) ← blockScalar literal s.indent (s.rest.drop 1)
  return { s with rest, fresh := true }.push (.scalar (String.ofList cs) false)

def startsPlain (flow : Bool) (c next : Char) : Bool :=
  !(isSpace c || c ∈ ['-', '?', ':', ',', '[', ']', '\x7b', '\x7d', '#', '&', '*', '!', '|', '>',
      '\'', '"', '%', '@', '\x60'])
    || (c = '-' && !isBlank next)
    || (!flow && (c = '?' || c = ':') && !isSpace next)

def dispatch (s : Lexer) : Except Obstruction Lexer :=
  let c := peek s.rest 0
  let next := peek s.rest 1
  if s.column = 0 && c = '%' then do
    let s ← s.margin
    let (t, rest) ← directive (s.rest.drop 1)
    return { s with rest }.push t
  else if atDocumentMark '-' s.rest then
    s.margin.map fun s => (s.pass 3).push .documentStart
  else if atDocumentMark '.' s.rest then
    s.margin.map fun s => (s.pass 3).push .documentEnd
  else if c = '[' then s.openFlow .flowSequence
  else if c = '\x7b' then s.openFlow .flowMapping
  else if c = ']' then s.closeFlow .flowSequenceEnd
  else if c = '\x7d' then s.closeFlow .flowMappingEnd
  else if c = ',' then s.flowEntry
  else if c = '-' && isSpace next then s.blockEntry
  else if c = '?' && (s.inFlow || isSpace next) then s.key
  else if c = ':' && (s.inFlow || isSpace next) then s.value
  else if c = '*' then
    s.item 1 fun gs => (anchorName gs).map fun (name, rest) => (.alias name, rest)
  else if c = '&' then
    s.item 1 fun gs => (anchorName gs).map fun (name, rest) => (.anchor name, rest)
  else if c = '!' then s.item 1 (tagToken s.inFlow)
  else if c = '|' && !s.inFlow then s.block true
  else if c = '>' && !s.inFlow then s.block false
  else if c = '\'' then s.quoted false
  else if c = '"' then s.quoted true
  else if startsPlain s.inFlow c next then s.plain
  else .error .indicator

/-- All tokens from here on. A step passes at least one character, so as many steps as there are
characters are enough. -/
def run : Nat → Lexer → Except Obstruction (List Token)
  | 0, _ => .error .misfit
  | steps + 1, s => do
    let s ← s.skipGaps.expire
    if peek s.rest 0 = terminator then
      let s ← s.close
      return s.made.reverse
    let s := s.unroll s.column
    run steps (← s.dispatch)

end Lexer

def tokens (cs : List Char) : Except Obstruction (List Token) := do
  let gs ← glyphs cs
  (Lexer.start gs).run (gs.length + 1)

end RemoteCall.Yaml
