import RemoteCall.Text.Literal

/-!
TOML text for strings and keys. Of the forms of a string the first that needs no escapes is taken;
where each needs some, the basic form is.
-/

namespace RemoteCall.Toml

def isBarred (c : Char) : Bool :=
  (c.toNat < 0x20 && c ≠ '\t' && c ≠ '\n') || c.toNat = 0x7F

def longestRun (c : Char) : Nat → List Char → Nat
  | run, [] => run
  | run, d :: cs => if d = c then longestRun c (run + 1) cs else max run (longestRun c 0 cs)

def hexFour (n : Nat) : List Char :=
  [n / 4096 % 16, n / 256 % 16, n / 16 % 16, n % 16].map fun d => (Nat.digitChar d).toUpper

/-- One character of an escaped form, in which an end of line stands as it is where `lines` says
so. -/
def escapedChar (lines : Bool) (c : Char) : List Char :=
  if c = '\x08' then ['\\', 'b']
  else if c = '\t' then ['\\', 't']
  else if c = '\n' then if lines then [c] else ['\\', 'n']
  else if c = '\x0c' then ['\\', 'f']
  else if c = '\r' then ['\\', 'r']
  else if c = '\\' then ['\\', '\\']
  else if c.toNat < 0x20 ∨ c.toNat = 0x7F then '\\' :: 'u' :: hexFour c.toNat
  else [c]

/-- The escaped form, in which no run of quotes is longer than `most`; `run` stand before. -/
def escaped (lines : Bool) (most : Nat) : Nat → List Char → List Char
  | _, [] => []
  | run, c :: cs =>
    if c = '"' then
      if run < most then c :: escaped lines most (run + 1) cs
      else '\\' :: c :: escaped lines most 0 cs
    else escapedChar lines c ++ escaped lines most 0 cs

def basic (cs : List Char) : List Char := '"' :: escaped false 0 0 cs ++ ['"']

def literal (cs : List Char) : List Char := '\'' :: cs ++ ['\'']

/-- The forms of several lines begin with an end of line that does not count. -/
def basicLines (cs : List Char) : List Char :=
  ['"', '"', '"', '\n'] ++ escaped true 2 0 cs ++ ['"', '"', '"']

def literalLines (cs : List Char) : List Char :=
  ['\'', '\'', '\'', '\n'] ++ cs ++ ['\'', '\'', '\'']

def stringChars (cs : List Char) : List Char :=
  let barred := cs.any isBarred
  let slash := cs.contains '\\'
  let lines := cs.contains '\n'
  let doubles := longestRun '"' 0 cs
  let singles := longestRun '\'' 0 cs
  if !barred && !slash && !lines && doubles = 0 then basic cs
  else if !barred && !lines && singles = 0 then literal cs
  else if !barred && !slash && doubles ≤ 2 then basicLines cs
  else if !barred && singles ≤ 2 then literalLines cs
  else if lines then basicLines cs
  else basic cs

def isBare (c : Char) : Bool := c.isAlphanum || c = '_' || c = '-'

def keyChars (cs : List Char) : List Char :=
  let barred := cs.any fun c => isBarred c || c = '\n'
  if !cs.isEmpty && cs.all isBare then cs
  else if !barred && !cs.contains '\\' && !cs.contains '"' then basic cs
  else if !barred && !cs.contains '\'' then literal cs
  else basic cs

end RemoteCall.Toml
