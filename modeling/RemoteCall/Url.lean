import RemoteCall.Numeric.Decimal
import RemoteCall.Text.Blank
import RemoteCall.Text.Cut
import RemoteCall.Text.Utf8

/-!
Addresses, brought into one spelling: the case of a scheme and a host does not count, nor does a
channel that goes without saying, a dot among the names of a path, or who asks. What may not stand
in an address is written by number.
-/

namespace RemoteCall

/-- An address. The host is empty where the scheme needs none, and absent where the address names no
place at all. The channel is the number behind the host. -/
structure Url where
  scheme : List Char
  host : Option (List Char)
  channel : Option Nat
  path : List Char
  query : Option (List Char)
  fragment : Option (List Char)
  deriving DecidableEq

namespace Url

open Numeric Text

/-! ### Characters -/

def escapeByte (b : UInt8) : List Char :=
  ['%', (Nat.digitChar (b.toNat / 16)).toUpper, (Nat.digitChar (b.toNat % 16)).toUpper]

/-- Writes the characters outside printable ASCII by number, and the given ones. -/
def escape (listed : List Char) (cs : List Char) : List Char :=
  cs.flatMap fun c =>
    if c.toNat < 0x20 ∨ 0x7E < c.toNat ∨ c ∈ listed then
      (Utf8.encodeChar c).flatMap escapeByte
    else [c]

def unescape : List Char → List UInt8
  | '%' :: a :: b :: cs =>
    match digit? 16 a, digit? 16 b with
    | some a, some b => UInt8.ofNat (16 * a + b) :: unescape cs
    | _, _ => Utf8.encodeChar '%' ++ unescape (a :: b :: cs)
  | c :: cs => Utf8.encodeChar c ++ unescape cs
  | [] => []

/-- What ends or splits the parts of an address, and so cannot stand in a host. -/
def isReserved (c : Char) : Bool :=
  c.toNat ≤ 0x20
    || c ∈ ['#', '/', ':', '<', '>', '?', '@', '[', '\\', ']', '^', '|']

/-! ### Hosts -/

/-- A number in a host, in hexadecimal or octal digits after the usual marks. -/
def hostNumber? : List Char → Option Nat
  | '0' :: 'x' :: ds => if ds = [] then some 0 else natOfDigits? 16 ds
  | '0' :: d :: ds => natOfDigits? 8 (d :: ds)
  | ds => natOfDigits? 10 ds

/-- The labels between dots; a dot at the end does not count. -/
def labels (host : List Char) : List (List Char) :=
  let ls := fields '.' host
  if ls.length > 1 ∧ ls.getLast? = some [] then ls.dropLast else ls

def endsInNumber (host : List Char) : Bool :=
  match (labels host).getLast? with
  | some l => (l ≠ [] && l.all isDigit) || (l.take 2 = ['0', 'x'] && (hostNumber? l).isSome)
  | none => false

/-- The number of a host in up to four parts, the last of which stands for all that are missing. -/
def address4? (host : List Char) : Option Nat := do
  let parts ← (labels host).mapM hostNumber?
  let last ← parts.getLast?
  let first := parts.dropLast
  if parts.length > 4 ∨ first.any (255 < ·) ∨ Nat.pow 256 (5 - parts.length) ≤ last then none
  else some (first.foldr (fun n rest => n * 16777216 + rest / 256) 0 + last)

def dotted (n : Nat) : List Char :=
  ['.'].intercalate ([3, 2, 1, 0].map fun k => decimalDigits (n / Nat.pow 256 k % 256))

def group? (cs : List Char) : Option Nat := if cs.length ≤ 4 then natOfDigits? 16 cs else none

/-- Groups between colons, the last two of which may be written as four numbers. -/
def groups? (cs : List Char) : Option (List Nat) :=
  if cs = [] then some []
  else do
    let pieces := fields ':' cs
    let last := pieces.getLastD []
    if '.' ∈ last then
      let parts := fields '.' last
      let plain (p : List Char) : Bool := p.all isDigit && (p.length = 1 || p.head? ≠ some '0')
      if parts.length ≠ 4 ∨ !parts.all plain then none
      let n ← address4? last
      let first ← pieces.dropLast.mapM group?
      return first ++ [n / 65536, n % 65536]
    else pieces.mapM group?

/-- The eight groups of a host in brackets; a double colon stands for all that are missing. -/
def address6? (cs : List Char) : Option (List Nat) := do
  match cut? [':', ':'] cs with
  | some (before, after) =>
    let before ← groups? before
    let after ← groups? after
    let missing := 8 - (before.length + after.length)
    if missing = 0 then none else return before ++ List.replicate missing 0 ++ after
  | none =>
    let gs ← groups? cs
    if gs.length = 8 then some gs else none

def zeros (gs : List Nat) : Nat := (gs.takeWhile (· = 0)).length

def groupChars (gs : List Nat) : List Char := [':'].intercalate (gs.map (Nat.toDigits 16))

/-- The groups, with a double colon for the first of the longest runs of zeros. -/
def address6Chars (gs : List Nat) : List Char :=
  let runs := (List.range gs.length).map fun i => zeros (gs.drop i)
  let longest := runs.foldl max 0
  if longest < 2 then groupChars gs
  else
    let start := runs.idxOf longest
    groupChars (gs.take start) ++ [':', ':'] ++ groupChars (gs.drop (start + longest))

def host? (cs : List Char) : Option (List Char) := do
  match cs with
  | '[' :: inner =>
    if inner.getLast? ≠ some ']' then none
    let gs ← address6? inner.dropLast
    return '[' :: address6Chars gs ++ [']']
  | cs =>
    let host := lowercase (← Utf8.decode? (unescape cs))
    if host = [] ∨ host.any (fun c => isReserved c || c = '%' || 0x7E < c.toNat) then none
    if endsInNumber host then return dotted (← address4? host)
    return host

/-- The host of an address whose scheme gives it no meaning. -/
def opaqueHost? (cs : List Char) : Option (List Char) :=
  if cs.head? = some '[' then host? cs
  else if cs.any (fun c => isReserved c && !isControl c) then none
  else some (escape [] cs)

/-! ### Schemes and places -/

/-- The channel that goes without saying. -/
def usualChannel? (scheme : List Char) : Option Nat :=
  if scheme = "http".toList ∨ scheme = "ws".toList then some 80
  else if scheme = "https".toList ∨ scheme = "wss".toList then some 443
  else if scheme = "ftp".toList then some 21
  else none

/-- A channel after its colon; the empty one goes without saying. -/
def channel? (scheme : List Char) (cs : List Char) : Option (Option Nat) :=
  if cs = [] then some none
  else if !cs.all isDigit then none
  else do
    let n ← natOfDigits? 10 cs
    if 65535 < n then none
    return if usualChannel? scheme = some n then none else some n

/-- The host and the channel of a place, in which who asks does not count. -/
def place? (scheme : List Char) (read : List Char → Option (List Char)) (cs : List Char) :
    Option (List Char × Option Nat) := do
  let place := (cs.reverse.takeWhile (· ≠ '@')).reverse
  let bracketed := if place.head? = some '[' then (place.takeWhile (· ≠ ']')).length else 0
  let host := place.take bracketed ++ (place.drop bracketed).takeWhile (· ≠ ':')
  let rest := place.drop host.length
  if host = [] ∧ (rest ≠ [] ∨ '@' ∈ cs) then none
  return (← read host, ← channel? scheme (rest.drop 1))

/-! ### Paths -/

def isHere (name : List Char) : Bool := lowercase name ∈ [['.'], "%2e".toList]

def isAbove (name : List Char) : Bool :=
  lowercase name ∈ [['.', '.'], ".%2e".toList, "%2e.".toList, "%2e%2e".toList]

/-- Follows the names of a path; the names so far come last first. -/
def follow : List (List Char) → List (List Char) → List (List Char)
  | done, [] => done
  | done, [name] =>
    if isAbove name then [] :: done.tail else if isHere name then [] :: done else name :: done
  | done, name :: rest =>
    follow (if isAbove name then done.tail else if isHere name then done else name :: done) rest

def pathMarks : List Char := [' ', '"', '#', '<', '>', '?', '\x60', '\x7b', '\x7d']

def cleanPath (names : List Char) : List Char :=
  let kept := follow [] ((fields '/' names).map (escape pathMarks))
  kept.reverse.flatMap fun name => '/' :: name

/-! ### Addresses -/

def isSlash (c : Char) : Bool := c = '/' || c = '\\'

def straight (cs : List Char) : List Char := cs.map fun c => if c = '\\' then '/' else c

def location? (scheme rest : List Char) :
    Option (Option (List Char × Option Nat) × List Char) := do
  if (usualChannel? scheme).isSome then
    let rest := straight (rest.dropWhile isSlash)
    let place ← place? scheme host? (rest.takeWhile (· ≠ '/'))
    return (some place, cleanPath ((rest.dropWhile (· ≠ '/')).drop 1))
  else if scheme = "file".toList then
    match straight rest with
    | '/' :: '/' :: rest =>
      let host := rest.takeWhile (· ≠ '/')
      let host ← if host = [] then some [] else host? host
      return (some (if host = "localhost".toList then [] else host, none),
        cleanPath ((rest.dropWhile (· ≠ '/')).drop 1))
    | '/' :: names => return (some ([], none), cleanPath names)
    | names => return (some ([], none), cleanPath names)
  else
    match rest with
    | '/' :: '/' :: rest =>
      let place ← place? scheme opaqueHost? (rest.takeWhile (· ≠ '/'))
      let path := rest.dropWhile (· ≠ '/')
      return (some place, if path = [] then [] else cleanPath (path.drop 1))
    | '/' :: names => return (none, cleanPath names)
    | path => return (none, escape [] path)

def isScheme (cs : List Char) : Bool :=
  cs.head?.any Char.isAlpha && cs.all fun c => c.isAlphanum || c ∈ ['+', '-', '.']

def parted (mark : Char) (cs : List Char) : List Char × Option (List Char) :=
  match splitAt? mark cs with
  | some (before, after) => (before, some after)
  | none => (cs, none)

def parse (cs : List Char) : Option Url := do
  let cs := (dropBothWhile (·.toNat ≤ 0x20) cs).filter (· ∉ ['\t', '\n', '\r'])
  let (scheme, rest) ← splitAt? ':' cs
  if !isScheme scheme then none
  let scheme := lowercase scheme
  let (rest, fragment) := parted '#' rest
  let (rest, query) := parted '?' rest
  let (place, path) ← location? scheme rest
  let strict := (usualChannel? scheme).isSome || scheme = "file".toList
  let queryMarks := [' ', '"', '#', '<', '>'] ++ if strict then ['\''] else []
  return {
    scheme
    host := place.map Prod.fst
    channel := place.bind Prod.snd
    path
    query := query.map (escape queryMarks)
    fragment := fragment.map (escape [' ', '"', '<', '>', '\x60']) }

def chars (u : Url) : List Char :=
  let place := match u.host with
    | some host => ['/', '/'] ++ host ++ (u.channel.map fun n => ':' :: decimalDigits n).getD []
    | none => []
  u.scheme ++ ':' :: place ++ u.path ++ (u.query.map ('?' :: ·)).getD []
    ++ (u.fragment.map ('#' :: ·)).getD []

def text (u : Url) : String := String.ofList u.chars

def target (u : Url) : List Char :=
  (if u.path = [] then ['/'] else u.path) ++ (u.query.map ('?' :: ·)).getD []

def isWeb (u : Url) : Bool := u.scheme = "http".toList || u.scheme = "https".toList

end Url

end RemoteCall
