import RemoteCall.Json.Basic
import RemoteCall.Numeric.Decimal
import RemoteCall.Text.Utf8

/-!
Reading JSON text. What a text says is read once, as far as it can be read, into a draft that keeps
repeated keys, the text behind each key, and the place and kind of the first fault. Every reader of
JSON works on drafts, so that a fault of the text and a value of the wrong shape are reported in
the order in which they stand.
-/

namespace RemoteCall.Json

open Numeric

/-- Why a text is no JSON: it ends too early, or it is malformed. -/
inductive Flaw
  | cutOff
  | malformed
  deriving DecidableEq

/-- A code unit of a string: a character, or half of a surrogate pair. -/
inductive CodeUnit
  | char (c : Char)
  | half (n : Nat)
  deriving DecidableEq

/-- A string as it was read. An unpaired half is no text, but still has bytes. -/
abbrev Units := List CodeUnit

/-- A key: its text, unless that is faulty, and what follows its opening quote. -/
structure Key where
  text : Except Flaw String
  source : List Char

/-- The content of a text as far as it could be read. Nothing follows a `broken` node or a `stop`
in the text; a broken node has a fault for a reader of its value, and one for a reader that only
passes over it. A `keyless` object begins with something else than a key; `lead` is the fault for a
reader that takes any value there, unless it is a value of another kind. -/
inductive Draft
  | null
  | bool (b : Bool)
  | number (value : Option Number)
  | string (units : Units)
  | array (items : List Draft) (stop : Option Flaw)
  | object (entries : List (Key × Draft)) (stop : Option Flaw)
  | keyless (stop : Flaw) (lead : Option Flaw)
  | broken (read passed : Flaw)

/-! ### Strings -/

namespace Units

def isLead (n : Nat) : Bool := 0xD800 ≤ n && n ≤ 0xDBFF

def isTrail (n : Nat) : Bool := 0xDC00 ≤ n && n ≤ 0xDFFF

/-- Adds the unit of an escape by number in front: a leading half takes a trailing one in. -/
def consNumber (n : Nat) (us : Units) : Units :=
  if isLead n then
    match us with
    | .half t :: rest =>
      if isTrail t then .char (Char.ofNat (0x10000 + (n - 0xD800) * 0x400 + (t - 0xDC00))) :: rest
      else .half n :: us
    | _ => .half n :: us
  else if isTrail n then .half n :: us
  else .char (Char.ofNat n) :: us

/-- The text, where no half stands alone. -/
def text? : Units → Option (List Char)
  | [] => some []
  | .char c :: us => (text? us).map (c :: ·)
  | .half _ :: _ => none

/-- The bytes, an unpaired half written like a character of its number. -/
def bytes : Units → List UInt8
  | [] => []
  | .char c :: us => Text.Utf8.encodeChar c ++ bytes us
  | .half n :: us =>
    [UInt8.ofNat (0xE0 + n / 4096), UInt8.ofNat (0x80 + n / 64 % 64), UInt8.ofNat (0x80 + n % 64)]
      ++ bytes us

/-- The fault of a string that ended with `f`: an unpaired half that something followed came
first. -/
def faultBefore (f : Flaw) : Units → Flaw
  | [] => f
  | .char _ :: us => faultBefore f us
  | [.half n] => if isLead n then f else .malformed
  | .half _ :: _ => .malformed

end Units

def escaped? (c : Char) : Option Char :=
  if c = '"' ∨ c = '\\' ∨ c = '/' then some c
  else if c = 'b' then some '\x08'
  else if c = 'f' then some '\x0c'
  else if c = 'n' then some '\n'
  else if c = 'r' then some '\r'
  else if c = 't' then some '\t'
  else none

def hex4? (a b c d : Char) : Option Nat := do
  let a ← digit? 16 a
  let b ← digit? 16 b
  let c ← digit? 16 c
  let d ← digit? 16 d
  some (((a * 16 + b) * 16 + c) * 16 + d)

/-- The fault of an escape whose four digits cannot be read: fewer than four bytes may be left. -/
def escapeFault (cs : List Char) : Flaw :=
  if (Text.Utf8.encode (cs.take 4)).length < 4 then .cutOff else .malformed

def readUnits : List Char → Units × Except Flaw (List Char)
  | [] => ([], .error .cutOff)
  | '"' :: cs => ([], .ok cs)
  | ['\\'] => ([], .error .cutOff)
  | '\\' :: 'u' :: a :: b :: c :: d :: cs =>
    match hex4? a b c d with
    | some n =>
      let (us, rest) := readUnits cs
      (Units.consNumber n us, rest)
    | none => ([], .error (escapeFault [a, b, c, d]))
  | '\\' :: 'u' :: cs => ([], .error (escapeFault cs))
  | '\\' :: e :: cs =>
    match escaped? e with
    | some c =>
      let (us, rest) := readUnits cs
      (.char c :: us, rest)
    | none => ([], .error .malformed)
  | c :: cs =>
    if c.toNat < 0x20 then ([], .error .malformed)
    else
      let (us, rest) := readUnits cs
      (.char c :: us, rest)

/-! ### Numbers -/

/-- Extends a number with the digits that keep it within 64 bits, up to the first that does not;
also how many digits were left. -/
def extend (n : Nat) : List Char → Nat × Nat
  | [] => (n, 0)
  | c :: cs =>
    let m := n * 10 + (c.toNat - '0'.toNat)
    if m < pow2 64 then extend m cs else (n, cs.length + 1)

def tenPower? (k : Nat) : Option Binary64 := Binary64.ofNat? (pow10 k)

/-- Divides by a power of ten, in steps that the format holds; zero stays. -/
def shrink (x : Binary64) (k : Nat) : Option Binary64 :=
  if h : k ≤ 308 then do (x.div? (← tenPower? k))
  else if x.place.val = 0 then some x
  else do shrink (← x.div? (← tenPower? 308)) (k - 308)
termination_by k
decreasing_by omega

/-- The fraction of a significand of 64 bits and a power of ten: each is rounded, and then their
product or quotient. Nothing where it lies past the largest number. -/
def fraction? (negative : Bool) (significand : Nat) (e : Int) : Option Binary64 := do
  let x ← Binary64.ofNat? significand
  let y ←
    if 0 ≤ e then
      if e ≤ 308 then x.mul? (← tenPower? e.toNat)
      else if significand = 0 then some x
      else none
    else shrink x (-e).toNat
  some { y with negative }

/-- The value of a number in its parts: a whole number where it is written as one and fits in 64
bits, otherwise a fraction. -/
def numberOf (negative : Bool) (whole : List Char) (fraction : Option (List Char))
    (e : Option Int) : Option Number :=
  let (n, left) := extend 0 whole
  let (m, lost) := extend n (fraction.getD [])
  let taken := (fraction.getD []).length - lost
  match fraction, e, left with
  | none, none, 0 =>
    let value : Int := if negative then -(n : Int) else n
    match if negative ∧ n = 0 then none else Integer.ofInt? value with
    | some n => some (.integer n)
    | none => (fraction? negative n 0).map .float
  | _, _, _ => (fraction? negative m (e.getD 0 + left - taken)).map .float

def readDigits (cs : List Char) : Except Flaw (List Char × List Char) :=
  match cs.takeWhile isDigit, cs with
  | [], [] => .error .cutOff
  | [], _ => .error .malformed
  | ds, _ => .ok (ds, cs.dropWhile isDigit)

/-- The digits before the point: a zero stands alone. -/
def readWhole (cs : List Char) : Except Flaw (List Char × List Char) := do
  let (ds, rest) ← readDigits cs
  if ds.head? = some '0' ∧ ds.length ≠ 1 then throw .malformed
  return (ds, rest)

/-- The digits behind a point, where there is one. -/
def readFraction : List Char → Except Flaw (Option (List Char) × List Char)
  | '.' :: cs => do
    let (ds, rest) ← readDigits cs
    return (some ds, rest)
  | cs => .ok (none, cs)

/-- The power of ten behind its mark, where there is one. -/
def readExponent : List Char → Except Flaw (Option Int × List Char)
  | [] => .ok (none, [])
  | c :: cs =>
    if c = 'e' || c = 'E' then do
      let (minus, cs) := match cs with
        | '-' :: cs => (true, cs)
        | '+' :: cs => (false, cs)
        | cs => (false, cs)
      let (ds, rest) ← readDigits cs
      let e : Int := (natOfDigits? 10 ds).getD 0
      return (some (if minus then -e else e), rest)
    else .ok (none, c :: cs)

/-- A number: its value, or nothing where it is too large, and what follows. -/
def readNumber (cs : List Char) : Except (Flaw × Flaw) (Option Number × List Char) := do
  let both (f : Flaw) : Flaw × Flaw := (f, f)
  let (negative, cs) := match cs with
    | '-' :: cs => (true, cs)
    | cs => (false, cs)
  let (whole, cs) ← (readWhole cs).mapError both
  let (fraction, cs) ← (readFraction cs).mapError both
  let (e, rest) ← (readExponent cs).mapError fun f => (f, .malformed)
  return (numberOf negative whole fraction e, rest)

/-! ### Values -/

def isSpace (c : Char) : Bool := c = ' ' || c = '\t' || c = '\n' || c = '\r'

def skipSpace (cs : List Char) : List Char := cs.dropWhile isSpace

def readWord : List Char → List Char → Except Flaw (List Char)
  | [], cs => .ok cs
  | _ :: _, [] => .error .cutOff
  | w :: word, c :: cs => if w = c then readWord word cs else .error .malformed

def readLiteral (word : List Char) (value : Draft) (cs : List Char) : Draft × Option (List Char) :=
  match readWord word cs with
  | .ok rest => (value, some rest)
  | .error f => (.broken f f, none)

def readScalar (cs : List Char) : Draft × Option (List Char) :=
  match cs with
  | [] => (.broken .cutOff .cutOff, none)
  | '"' :: cs =>
    match readUnits cs with
    | (us, .ok rest) => (.string us, some rest)
    | (us, .error f) => (.broken (us.faultBefore f) f, none)
  | 'n' :: cs => readLiteral ['u', 'l', 'l'] .null cs
  | 't' :: cs => readLiteral ['r', 'u', 'e'] (.bool true) cs
  | 'f' :: cs => readLiteral ['a', 'l', 's', 'e'] (.bool false) cs
  | c :: _ =>
    if c = '-' || isDigit c then
      match readNumber cs with
      | .ok (n, rest) => (.number n, some rest)
      | .error (f, g) => (.broken f g, none)
    else (.broken .malformed .malformed, none)

def keyFault (cs : List Char) : Flaw := if cs.isEmpty then .cutOff else .malformed

/-- The fault of a value that stands in place of the first key, unless it is of another kind. -/
def leadFault? (cs : List Char) : Option Flaw :=
  match cs with
  | '[' :: _ => none
  | '\x7b' :: _ => none
  | cs =>
    match readScalar cs with
    | (.broken f _, _) => some f
    | (.number none, _) => some .malformed
    | _ => none

def keyOf (source : List Char) : Units × Except Flaw (List Char) → Key
  | (us, .error f) => ⟨.error (us.faultBefore f), source⟩
  | (us, .ok _) =>
    match us.text? with
    | some cs => ⟨.ok (String.ofList cs), source⟩
    | none => ⟨.error .malformed, source⟩

mutual

/-- The value in front, and what follows it unless it is broken. Two steps for every character are
enough. -/
def readValue : Nat → List Char → Draft × Option (List Char)
  | 0, _ => (.broken .malformed .malformed, none)
  | steps + 1, cs =>
    match skipSpace cs with
    | '[' :: cs =>
      match skipSpace cs with
      | ']' :: rest => (.array [] none, some rest)
      | cs =>
        let (items, stop, rest) := readItems steps cs
        (.array items stop, rest)
    | '\x7b' :: cs =>
      match skipSpace cs with
      | '\x7d' :: rest => (.object [] none, some rest)
      | '"' :: cs =>
        let (entries, stop, rest) := readEntries steps ('"' :: cs)
        (.object entries stop, rest)
      | cs => (.keyless (keyFault cs) (leadFault? cs), none)
    | cs => readScalar cs

def readItems : Nat → List Char → List Draft × Option Flaw × Option (List Char)
  | 0, _ => ([], some .malformed, none)
  | steps + 1, cs =>
    match readValue steps cs with
    | (item, none) => ([item], none, none)
    | (item, some rest) =>
      match skipSpace rest with
      | ',' :: rest =>
        let (items, stop, rest) := readItems steps rest
        (item :: items, stop, rest)
      | ']' :: rest => ([item], none, some rest)
      | [] => ([item], some .cutOff, none)
      | _ => ([item], some .malformed, none)

def readEntries : Nat → List Char → List (Key × Draft) × Option Flaw × Option (List Char)
  | 0, _ => ([], some .malformed, none)
  | steps + 1, cs =>
    match skipSpace cs with
    | '"' :: source =>
      let read := readUnits source
      let key := keyOf source read
      match read.2 with
      | .error f => ([(key, .broken f f)], none, none)
      | .ok rest =>
        match skipSpace rest with
        | ':' :: rest =>
          match readValue steps rest with
          | (value, none) => ([(key, value)], none, none)
          | (value, some rest) =>
            match skipSpace rest with
            | ',' :: rest =>
              let (entries, stop, rest) := readEntries steps rest
              ((key, value) :: entries, stop, rest)
            | '\x7d' :: rest => ([(key, value)], none, some rest)
            | [] => ([(key, value)], some .cutOff, none)
            | _ => ([(key, value)], some .malformed, none)
        | [] => ([(key, .broken .cutOff .cutOff)], none, none)
        | _ => ([(key, .broken .malformed .malformed)], none, none)
    | cs => ([], some (keyFault cs), none)

end

/-- A whole text: its value, and a fault where more than blanks follow the value. -/
def readText (cs : List Char) : Draft × Option Flaw :=
  match readValue (2 * cs.length + 2) cs with
  | (d, none) => (d, none)
  | (d, some rest) => (d, if (skipSpace rest).isEmpty then none else some .malformed)

end RemoteCall.Json
