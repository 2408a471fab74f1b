import RemoteCall.Text.Cut

/-!
Patterns to search a text for: words, and between them runs of characters on one line. A match
begins as far left as it can, and a run in it is as long as what is behind it allows.
-/

namespace RemoteCall.Text

/-- A part of a pattern: certain characters, or a run of one or more that do not end a line. -/
inductive Piece
  | word (cs : List Char)
  | run

abbrev Pattern := List Piece

/-- The longest run at the start of a text behind which one can go on, and what comes of that. -/
def takeRun? {α : Type} (next : List Char → Option α) : List Char → Option (List Char × α)
  | [] => none
  | c :: cs =>
    if c = '\n' then none
    else
      match takeRun? next cs with
      | some (run, a) => some (c :: run, a)
      | none => (next cs).map fun a => ([c], a)

namespace Pattern

/-- The runs of the match at the start of a text, and what follows the match. -/
def match? : Pattern → List Char → Option (List (List Char) × List Char)
  | [], cs => some ([], cs)
  | .word w :: p, cs => afterStart? w cs >>= match? p
  | .run :: p, cs => (takeRun? (match? p) cs).map fun (run, runs, rest) => (run :: runs, rest)

/-- The runs of each match behind so many characters, one match behind the other. A match is taken
to have characters in it. -/
def findBehind (p : Pattern) : Nat → List Char → List (List (List Char))
  | _, [] => []
  | n + 1, _ :: cs => findBehind p n cs
  | 0, c :: cs =>
    match p.match? (c :: cs) with
    | some (runs, rest) => runs :: findBehind p (cs.length - rest.length) cs
    | none => findBehind p 0 cs

def findAll (p : Pattern) (cs : List Char) : List (List (List Char)) := p.findBehind 0 cs

end Pattern

end RemoteCall.Text
