import RemoteCall.Json.Basic
import RemoteCall.Numeric.Shortest

/-! JSON text: the compact form, and the form of one entry a line. -/

namespace RemoteCall.Json

open Numeric

/-- The decimal point and exponent of a number with the given shortest digits: positional from
`1e-5` up to `1e16`, otherwise one digit before the point and a signed exponent. -/
def layout (ds : List Char) (e : Int) : List Char :=
  let lead : Int := e + ds.length - 1
  if -5 ≤ lead ∧ lead < 16 then
    if 0 ≤ e then ds ++ List.replicate e.toNat '0' ++ ['.', '0']
    else if 0 ≤ lead then
      let whole := lead.toNat + 1
      ds.take whole ++ '.' :: ds.drop whole
    else '0' :: '.' :: List.replicate (-lead - 1).toNat '0' ++ ds
  else
    let significand := match ds with
      | [d] => [d]
      | d :: rest => d :: '.' :: rest
      | [] => ['0']
    significand ++ 'e' :: (if lead < 0 then '-' else '+') :: decimalDigits lead.natAbs

/-- The shortest text that reads back as the number; it always shows a point or an exponent. -/
def floatChars (x : Binary64) : List Char :=
  let d := x.shortest
  (if x.negative then ['-'] else [])
    ++ (if d.digits = 0 then ['0', '.', '0'] else layout (decimalDigits d.digits) d.exponent)

def Number.chars : Number → List Char
  | .integer n => decimal n.val
  | .float x => floatChars x

def escape (c : Char) : List Char :=
  if c = '"' then ['\\', '"']
  else if c = '\\' then ['\\', '\\']
  else if c = '\n' then ['\\', 'n']
  else if c = '\r' then ['\\', 'r']
  else if c = '\t' then ['\\', 't']
  else if c = '\x08' then ['\\', 'b']
  else if c = '\x0c' then ['\\', 'f']
  else if c.toNat < 0x20 then
    ['\\', 'u', '0', '0', Nat.digitChar (c.toNat / 16), Nat.digitChar (c.toNat % 16)]
  else [c]

def stringChars (s : String) : List Char := '"' :: s.toList.flatMap escape ++ ['"']

def commas : List (List Char) → List Char
  | [] => []
  | [piece] => piece
  | piece :: rest => piece ++ ',' :: commas rest

mutual

def chars : Json → List Char
  | .null => ['n', 'u', 'l', 'l']
  | .bool true => ['t', 'r', 'u', 'e']
  | .bool false => ['f', 'a', 'l', 's', 'e']
  | .number n => n.chars
  | .string s => stringChars s
  | .array items => '[' :: commas (itemsChars items) ++ [']']
  | .object entries => '\x7b' :: commas (entriesChars entries) ++ ['\x7d']

def itemsChars : List Json → List (List Char)
  | [] => []
  | v :: vs => v.chars :: itemsChars vs

def entriesChars : List (String × Json) → List (List Char)
  | [] => []
  | (k, v) :: es => (stringChars k ++ ':' :: v.chars) :: entriesChars es

end

def text (v : Json) : String := String.ofList v.chars

/-- Pieces one a line, each indented, between two brackets. -/
def bracketed (indent : Nat) (opening closing : Char) (pieces : List (List Char)) : List Char :=
  let line (piece : List Char) : List Char := '\n' :: List.replicate (indent + 2) ' ' ++ piece
  opening :: commas (pieces.map line) ++ '\n' :: List.replicate indent ' ' ++ [closing]

mutual

def prettyChars (indent : Nat) : Json → List Char
  | .array [] => ['[', ']']
  | .array (v :: vs) => bracketed indent '[' ']' (itemsPretty (indent + 2) (v :: vs))
  | .object [] => ['\x7b', '\x7d']
  | .object (e :: es) => bracketed indent '\x7b' '\x7d' (entriesPretty (indent + 2) (e :: es))
  | v => v.chars

def itemsPretty (indent : Nat) : List Json → List (List Char)
  | [] => []
  | v :: vs => prettyChars indent v :: itemsPretty indent vs

def entriesPretty (indent : Nat) : List (String × Json) → List (List Char)
  | [] => []
  | (k, v) :: es =>
    (stringChars k ++ ':' :: ' ' :: prettyChars indent v) :: entriesPretty indent es

end

def pretty (v : Json) : String := String.ofList (prettyChars 0 v)

end RemoteCall.Json
