import RemoteCall.Numeric.Decimal
import RemoteCall.Text.Blank
import RemoteCall.Text.Cut
import RemoteCall.Toml.Basic

/-! Reading TOML text. A reader takes what it reads from the front of the text, or fails. -/

namespace RemoteCall.Toml

open Numeric

abbrev Reader := StateT (List Char) Option

namespace Reader

def fail {α : Type} : Reader α := fun _ => none

def peek : Reader (Option Char) := fun cs => some (cs.head?, cs)

def skip (n : Nat) : Reader PUnit := fun cs => some (⟨⟩, cs.drop n)

def span (p : Char → Bool) : Reader (List Char) := fun cs => some (cs.takeWhile p, cs.dropWhile p)

def word (w : List Char) : Reader PUnit := fun cs =>
  (Text.afterStart? w cs).map fun rest => (⟨⟩, rest)

def startsWith (w : List Char) : Reader Bool := fun cs => some (w.isPrefixOf cs, cs)

def ofFunction {α : Type} (f : List Char → Option (α × List Char)) : Reader α := f

/-! ### Blanks and lines -/

def isBlank (c : Char) : Bool := c = ' ' || c = '\t'

def isPlain (c : Char) : Bool := c = '\t' || (0x20 ≤ c.toNat && c.toNat ≠ 0x7F)

def blanks : Reader PUnit := do
  let _ ← span isBlank

def comment : Reader PUnit := do
  if (← peek) = some '#' then
    let _ ← span isPlain

def newline? : Reader Bool := fun cs =>
  match cs with
  | '\n' :: cs => some (true, cs)
  | '\r' :: '\n' :: cs => some (true, cs)
  | cs => some (false, cs)

def lineEnd : Reader PUnit := do
  blanks
  comment
  if (← peek).isSome then
    if !(← newline?) then fail

def gaps : Nat → Reader PUnit
  | 0 => fail
  | fuel + 1 => do
    blanks
    comment
    if ← newline? then gaps fuel

/-! ### Strings -/

def escape? (c : Char) : Option Char :=
  match c with
  | 'b' => some '\x08'
  | 't' => some '\t'
  | 'n' => some '\n'
  | 'f' => some '\x0c'
  | 'r' => some '\r'
  | '"' => some '"'
  | '\\' => some '\\'
  | _ => none

def charOfHex? (ds : List Char) : Option Char := do
  let n ← natOfDigits? 16 ds
  if n < 0xD800 ∨ (0xDFFF < n ∧ n ≤ 0x10FFFF) then some (Char.ofNat n) else none

def cons (c : Char) (r : Option (List Char × List Char)) : Option (List Char × List Char) :=
  r.map fun (cs, rest) => (c :: cs, rest)

def basicBody : List Char → Option (List Char × List Char)
  | [] => none
  | '"' :: cs => some ([], cs)
  | '\\' :: 'u' :: a :: b :: c :: d :: cs => do
    cons (← charOfHex? [a, b, c, d]) (basicBody cs)
  | '\\' :: 'U' :: a :: b :: c :: d :: e :: f :: g :: h :: cs => do
    cons (← charOfHex? [a, b, c, d, e, f, g, h]) (basicBody cs)
  | '\\' :: e :: cs => do cons (← escape? e) (basicBody cs)
  | c :: cs => if isPlain c then cons c (basicBody cs) else none

def endsLine (cs : List Char) : Bool :=
  match cs.dropWhile isBlank with
  | '\n' :: _ => true
  | '\r' :: '\n' :: _ => true
  | _ => false

/-- The content of a basic string of several lines up to its closing quotes. After a backslash at
the end of a line, blanks and ends of lines are nothing; `dropping` says whether one came before. -/
def basicLinesBody (dropping : Bool) : List Char → Option (List Char × List Char)
  | [] => none
  | '\n' :: cs => if dropping then basicLinesBody true cs else cons '\n' (basicLinesBody false cs)
  | '\r' :: '\n' :: cs =>
    if dropping then basicLinesBody true cs else cons '\n' (basicLinesBody false cs)
  | '"' :: '"' :: '"' :: '"' :: '"' :: cs => some (['"', '"'], cs)
  | '"' :: '"' :: '"' :: '"' :: cs => some (['"'], cs)
  | '"' :: '"' :: '"' :: cs => some ([], cs)
  | '\\' :: 'u' :: a :: b :: c :: d :: cs => do
    cons (← charOfHex? [a, b, c, d]) (basicLinesBody false cs)
  | '\\' :: 'U' :: a :: b :: c :: d :: e :: f :: g :: h :: cs => do
    cons (← charOfHex? [a, b, c, d, e, f, g, h]) (basicLinesBody false cs)
  | '\\' :: cs =>
    if endsLine cs then basicLinesBody true cs
    else
      match cs with
      | [] => none
      | e :: cs => do cons (← escape? e) (basicLinesBody false cs)
  | c :: cs =>
    if dropping && isBlank c then basicLinesBody true cs
    else if isPlain c then cons c (basicLinesBody false cs)
    else none

def literalBody : List Char → Option (List Char × List Char)
  | [] => none
  | '\'' :: cs => some ([], cs)
  | c :: cs => if isPlain c then cons c (literalBody cs) else none

/-- The content of a literal string of several lines up to its closing quotes. -/
def literalLinesBody : List Char → Option (List Char × List Char)
  | [] => none
  | '\n' :: cs => cons '\n' (literalLinesBody cs)
  | '\r' :: '\n' :: cs => cons '\n' (literalLinesBody cs)
  | '\'' :: '\'' :: '\'' :: '\'' :: '\'' :: cs => some (['\'', '\''], cs)
  | '\'' :: '\'' :: '\'' :: '\'' :: cs => some (['\''], cs)
  | '\'' :: '\'' :: '\'' :: cs => some ([], cs)
  | c :: cs => if isPlain c then cons c (literalLinesBody cs) else none

def string : Reader String := do
  match ← peek with
  | some '"' => do
    skip 1
    return String.ofList (← ofFunction basicBody)
  | some '\'' => do
    skip 1
    return String.ofList (← ofFunction literalBody)
  | _ => fail

def anyString : Reader String := do
  if ← startsWith ['"', '"', '"'] then
    skip 3
    let _ ← newline?
    return String.ofList (← ofFunction (basicLinesBody false))
  if ← startsWith ['\'', '\'', '\''] then
    skip 3
    let _ ← newline?
    return String.ofList (← ofFunction literalLinesBody)
  string

/-! ### Numbers and moments -/

/-- Digits of a kind, between which underscores may stand. -/
def grouped? (isPart : Char → Bool) (cs : List Char) : Option (List Char) :=
  let groups := Text.fields '_' cs
  if groups.all fun g => !g.isEmpty && g.all isPart then some groups.flatten else none

/-- The digits of a decimal number, which does not begin with zero unless it is zero. -/
def unpadded? (cs : List Char) : Option (List Char) := do
  let ds ← grouped? isDigit cs
  match ds with
  | '0' :: _ :: _ => none
  | ds => some ds

def signed (cs : List Char) : Bool × List Char :=
  match cs with
  | '-' :: cs => (true, cs)
  | '+' :: cs => (false, cs)
  | cs => (false, cs)

def natural? (cs : List Char) : Option Nat :=
  match cs with
  | '0' :: 'x' :: ds => grouped? Char.isAlphanum ds >>= natOfDigits? 16
  | '0' :: 'o' :: ds => grouped? isDigit ds >>= natOfDigits? 8
  | '0' :: 'b' :: ds => grouped? isDigit ds >>= natOfDigits? 2
  | ds => unpadded? ds >>= natOfDigits? 10

/-- A whole number of at most 128 bits. -/
def integer? (cs : List Char) : Option Int := do
  let (negative, ds) := signed cs
  let n ← if ds.length = cs.length then natural? ds else unpadded? ds >>= natOfDigits? 10
  let n : Int := if negative then -n else n
  if -(pow2 127 : Int) ≤ n ∧ n < pow2 128 then some n else none

def fractionPart? (cs : List Char) : Option (List Char × List Char) :=
  match cs with
  | '.' :: cs => do
    let isPart (c : Char) : Bool := isDigit c || c = '_'
    let ds ← grouped? isDigit (cs.takeWhile isPart)
    return ('.' :: ds, cs.dropWhile isPart)
  | cs => some ([], cs)

def exponentPart? (cs : List Char) : Option (List Char) :=
  match cs with
  | [] => some []
  | c :: cs =>
    if c = 'e' ∨ c = 'E' then do
      let (negative, ds) := signed cs
      let ds ← grouped? isDigit ds
      return 'e' :: (if negative then '-' else '+') :: ds
    else none

def fraction? (cs : List Char) : Option Value := do
  let (negative, rest) := signed cs
  if rest = ['i', 'n', 'f'] ∨ rest = ['n', 'a', 'n'] then return .fraction none
  let isPart (c : Char) : Bool := isDigit c || c = '_'
  let whole ← unpadded? (rest.takeWhile isPart)
  let (fraction, rest) ← fractionPart? (rest.dropWhile isPart)
  let exponent ← exponentPart? rest
  if fraction.isEmpty && exponent.isEmpty then none
  let x ← Binary64.ofUnsigned? negative (whole ++ fraction ++ exponent)
  return .fraction (some x)

def fixed? (length : Nat) (cs : List Char) : Option Nat :=
  if cs.length = length ∧ cs.all isDigit then natOfDigits? 10 cs else none

def daysOf (year month : Nat) : Nat :=
  if month = 2 then
    if year % 4 = 0 ∧ (year % 100 ≠ 0 ∨ year % 400 = 0) then 29 else 28
  else if month ∈ [4, 6, 9, 11] then 30
  else 31

def isDate (cs : List Char) : Bool :=
  match Text.fields '-' cs with
  | [y, m, d] =>
    match fixed? 4 y, fixed? 2 m, fixed? 2 d with
    | some y, some m, some d => 1 ≤ m && m ≤ 12 && 1 ≤ d && d ≤ daysOf y m
    | _, _, _ => false
  | _ => false

def isSeconds (cs : List Char) : Bool :=
  match Text.fields '.' cs with
  | [s] => (fixed? 2 s).any (· ≤ 60)
  | [s, f] => (fixed? 2 s).any (· ≤ 60) && !f.isEmpty && f.all isDigit
  | _ => false

def isTime (cs : List Char) : Bool :=
  match Text.fields ':' cs with
  | [h, m, s] => (fixed? 2 h).any (· ≤ 23) && (fixed? 2 m).any (· ≤ 59) && isSeconds s
  | _ => false

def isOffset (cs : List Char) : Bool :=
  match cs with
  | [c] => c = 'Z' || c = 'z'
  | c :: cs =>
    match Text.fields ':' cs with
    | [h, m] =>
      (c = '+' || c = '-') && (fixed? 2 h).any (· ≤ 23) && (fixed? 2 m).any (· ≤ 59)
    | _ => false
  | [] => false

def isZoned (cs : List Char) : Bool :=
  let isPart (c : Char) : Bool := isDigit c || c = ':' || c = '.'
  isTime (cs.takeWhile isPart)
    && (cs.dropWhile isPart = [] || isOffset (cs.dropWhile isPart))

def isMoment (cs : List Char) : Bool :=
  isTime cs || isDate cs
    || (isDate (cs.take 10) && (cs.drop 10).head?.any (fun c => c = 'T' || c = 't' || c = ' ')
      && isZoned (cs.drop 11))

/-- The text of a value without quotes and brackets. A time may follow its date behind a space. -/
def bareText : Reader (List Char) := do
  let isPart (c : Char) : Bool := c.isAlphanum || c ∈ ['+', '-', '_', '.', ':']
  let cs ← span isPart
  if isDate cs then
    let rest ← ofFunction fun rest =>
      match rest with
      | ' ' :: c :: more => if isDigit c then some (' ' :: (c :: more).takeWhile isPart, rest)
        else some ([], rest)
      | rest => some ([], rest)
    skip rest.length
    return cs ++ rest
  return cs

def bareValue : Reader Value := do
  let cs ← bareText
  if cs = "true".toList then return .bool true
  if cs = "false".toList then return .bool false
  match integer? cs, fraction? cs with
  | some n, _ => return .integer n
  | none, some v => return v
  | none, none => if isMoment cs then return .moment (String.ofList cs) else fail

/-! ### Keys and values -/

def keyPart : Reader String := do
  if (← peek) = some '"' ∨ (← peek) = some '\'' then string
  else do
    let cs ← span fun c => c.isAlphanum || c = '_' || c = '-'
    if cs.isEmpty then fail
    return String.ofList cs

def keyPath : Nat → Reader (List String)
  | 0 => fail
  | fuel + 1 => do
    let part ← keyPart
    blanks
    if (← peek) = some '.' then
      skip 1
      blanks
      return part :: (← keyPath fuel)
    return [part]

def depthLimit : Nat := 80

mutual

/-- A value, in which brackets and braces may be nested `depth` deep. -/
def value : Nat → Nat → Reader Value
  | 0, _ => fail
  | fuel + 1, depth => do
    match ← peek with
    | some '"' => return .text (← anyString)
    | some '\'' => return .text (← anyString)
    | some '[' =>
      match depth with
      | 0 => fail
      | depth + 1 => do
        skip 1
        return .array (← items fuel depth)
    | some '\x7b' =>
      match depth with
      | 0 => fail
      | depth + 1 => do
        skip 1
        blanks
        if (← peek) = some '\x7d' then
          skip 1
          return .table .inline []
        let es ← pairs fuel depth
        match es.foldlM (fun t e => Table.addKey e.1 e.2 t) [] with
        | some t => return .table .inline t
        | none => fail
    | _ => bareValue
termination_by structural fuel => fuel

/-- The items up to the closing bracket; a comma may follow the last one. -/
def items : Nat → Nat → Reader (List Value)
  | 0, _ => fail
  | fuel + 1, depth => do
    gaps fuel
    if (← peek) = some ']' then
      skip 1
      return []
    let v ← value fuel depth
    gaps fuel
    if (← peek) = some ',' then
      skip 1
      return v :: (← items fuel depth)
    word [']']
    return [v]
termination_by structural fuel => fuel

def pairs : Nat → Nat → Reader (List (List String × Value))
  | 0, _ => fail
  | fuel + 1, depth => do
    blanks
    let path ← keyPath fuel
    word ['=']
    blanks
    let v ← value fuel depth
    blanks
    if (← peek) = some ',' then
      skip 1
      return (path, v) :: (← pairs fuel depth)
    word ['\x7d']
    return [(path, v)]
termination_by structural fuel => fuel

end

/-! ### Documents -/

inductive Line
  | blank
  | entry (path : List String) (v : Value)
  | header (path : List String)
  | listHeader (path : List String)

def line (fuel : Nat) : Reader Line := do
  blanks
  match ← peek with
  | none => return .blank
  | some '#' => return .blank
  | some '\n' => return .blank
  | some '\r' => return .blank
  | some '[' => do
    skip 1
    let several := (← peek) = some '['
    if several then skip 1
    blanks
    let path ← keyPath fuel
    word (if several then [']', ']'] else [']'])
    return if several then .listHeader path else .header path
  | _ => do
    let path ← keyPath fuel
    word ['=']
    blanks
    return .entry path (← value fuel depthLimit)

def lines : Nat → Reader (List Line)
  | 0 => fail
  | fuel + 1 => do
    let l ← line fuel
    lineEnd
    if (← peek).isNone then return [l]
    return l :: (← lines fuel)

end Reader

/-! ### Tables -/

/-- The tables finished so far, and the one that entries go to, with its header. -/
structure Draft where
  finished : Table
  header : Option (List String × Bool)
  current : Table

namespace Draft

def finish (d : Draft) : Option Table :=
  match d.header with
  | none => some d.current
  | some (path, false) => d.finished.addTable path d.current
  | some (path, true) => d.finished.appendTable path d.current

def add (d : Draft) : Reader.Line → Option Draft
  | .blank => some d
  | .entry path v => do return { d with current := ← d.current.addKey path v }
  | .header path => do
    let finished ← d.finish
    let current ← finished.opened (path.getLastD "") path.dropLast
    return ⟨finished, some (path, false), current⟩
  | .listHeader path => do return ⟨← d.finish, some (path, true), []⟩

end Draft

/-- The table of a text, whose byte order mark does not count. -/
def parse (cs : List Char) : Option Table := do
  let cs := match cs with
    | '\uFEFF' :: cs => cs
    | cs => cs
  let (lines, _) ← Reader.lines (2 * cs.length + 2) cs
  let d ← lines.foldlM Draft.add ⟨[], none, []⟩
  d.finish

end RemoteCall.Toml
