import RemoteCall.Numeric.Binary

/-! Reading whole numbers in a radix and decimal fractions from text. -/

namespace RemoteCall.Numeric

def digit? (radix : Nat) (c : Char) : Option Nat :=
  let value? :=
    if '0' ≤ c ∧ c ≤ '9' then some (c.toNat - '0'.toNat)
    else if 'a' ≤ c ∧ c ≤ 'z' then some (c.toNat - 'a'.toNat + 10)
    else if 'A' ≤ c ∧ c ≤ 'Z' then some (c.toNat - 'A'.toNat + 10)
    else none
  value?.filter (· < radix)

/-- The number that a text of digits spells; the empty text spells none. -/
def natOfDigits? (radix : Nat) (cs : List Char) : Option Nat :=
  if cs.isEmpty then none
  else cs.foldlM (fun n c => (digit? radix c).map (n * radix + ·)) 0

def intOfDigits? (radix : Nat) : List Char → Option Int
  | '-' :: cs => (natOfDigits? radix cs).map fun n => -(n : Int)
  | '+' :: cs => (natOfDigits? radix cs).map fun n => (n : Int)
  | cs => (natOfDigits? radix cs).map fun n => (n : Int)

def isDigit (c : Char) : Bool := '0' ≤ c && c ≤ '9'

def decimalDigits (n : Nat) : List Char := Nat.toDigits 10 n

def decimal (n : Int) : List Char :=
  if n < 0 then '-' :: decimalDigits n.natAbs else decimalDigits n.natAbs

namespace Binary64

/-- The nearest number to `m * 10 ^ e`. Powers that lie far outside the format are settled by the
count of digits alone. -/
def ofDecimal? (negative : Bool) (m : Nat) (e : Int) : Option Binary64 :=
  let reach : Int := e + (decimalDigits m).length
  if m = 0 ∨ reach < -400 then some { zero with negative }
  else if 400 < reach then none
  else if 0 ≤ e then ofRatio? negative (m * pow10 e.toNat) 1
  else ofRatio? negative m (pow10 (-e).toNat)

/-- The exponent at the end of a decimal fraction; the empty text stands for no exponent. -/
def exponent? : List Char → Option Int
  | [] => some 0
  | c :: cs => if c = 'e' ∨ c = 'E' then intOfDigits? 10 cs else none

/-- A decimal fraction without sign: digits with an optional point among them, at least one digit,
and an optional exponent. -/
def ofUnsigned? (negative : Bool) (cs : List Char) : Option Binary64 := do
  let whole := cs.takeWhile isDigit
  let rest := cs.dropWhile isDigit
  let (fraction, rest) := match rest with
    | '.' :: rest => (rest.takeWhile isDigit, rest.dropWhile isDigit)
    | rest => ([], rest)
  let m ← natOfDigits? 10 (whole ++ fraction)
  let e ← exponent? rest
  ofDecimal? negative m (e - fraction.length)

/-- The nearest finite number to a decimal fraction with an optional sign. -/
def ofText? : List Char → Option Binary64
  | '-' :: cs => ofUnsigned? true cs
  | '+' :: cs => ofUnsigned? false cs
  | cs => ofUnsigned? false cs

end Binary64

end RemoteCall.Numeric
