/-!
Binary floating point in exact arithmetic. A format numbers its magnitudes from zero upward, so the
next magnitude is the next number, and rounding a quotient is one division on natural numbers.
-/

namespace RemoteCall.Numeric

def pow2 (k : Nat) : Nat := Nat.pow 2 k

def pow10 (k : Nat) : Nat := Nat.pow 10 k

/-- A binary floating point format: the bits of its significand, the exponent of the last place of
its smallest magnitudes, and how many finite magnitudes it has. -/
structure Format where
  precision : Nat
  leastExponent : Int
  finite : Nat
  deriving DecidableEq

namespace Format

def double : Format := ⟨53, -1074, 9218868437227405312⟩

def single : Format := ⟨24, -149, 2139095040⟩

/-- The magnitude numbered `k`, as a significand and a power of two. -/
def magnitude (f : Format) (k : Nat) : Nat × Int :=
  let half := pow2 (f.precision - 1)
  if k < half then (k, f.leastExponent)
  else (half + k % half, f.leastExponent + (k / half - 1 : Nat))

end Format

/-- The quotient to the nearest whole number, and to the even one of two equally near. -/
def divEven (num den : Nat) : Nat :=
  let q := num / den
  let r := num % den
  if 2 * r < den then q
  else if den < 2 * r then q + 1
  else q + q % 2

/-- The quotient `num / den` scaled by a power of two: a numerator and a denominator. -/
def scale (num den : Nat) (e : Int) : Nat × Nat :=
  if 0 ≤ e then (num * pow2 e.toNat, den) else (num, den * pow2 (-e).toNat)

/-- The power of two below a positive quotient: `2 ^ e ≤ num / den < 2 ^ (e + 1)`. -/
def floorLog2 (num den : Nat) : Int :=
  let e : Int := (Nat.log2 num : Int) - Nat.log2 den
  let (n, d) := scale num den (-e)
  if d ≤ n then e else e - 1

/-- The number of the magnitude nearest to `num / den`, as if the format had no largest one. -/
def Format.nearest (f : Format) (num den : Nat) : Nat :=
  if num = 0 then 0
  else
    let e := max f.leastExponent (floorLog2 num den - (f.precision - 1 : Nat))
    let (n, d) := scale num den (-e)
    divEven n d + (e - f.leastExponent).toNat * pow2 (f.precision - 1)

/-- A finite binary number of 64 bits: its sign, and the place of its magnitude among all. -/
structure Binary64 where
  negative : Bool
  place : Fin 9218868437227405312
  deriving DecidableEq

namespace Binary64

def zero : Binary64 := ⟨false, ⟨0, by decide⟩⟩

/-- Nothing where the magnitude lies past the largest finite one. -/
def ofPlace? (negative : Bool) (k : Nat) : Option Binary64 :=
  if h : k < 9218868437227405312 then some ⟨negative, ⟨k, h⟩⟩ else none

def ofRatio? (negative : Bool) (num den : Nat) : Option Binary64 :=
  ofPlace? negative (Format.double.nearest num den)

def parts (x : Binary64) : Nat × Int := Format.double.magnitude x.place

def ratio (x : Binary64) : Nat × Nat := scale x.parts.1 1 x.parts.2

def ofNat? (n : Nat) : Option Binary64 := ofRatio? false n 1

def ofInt? (n : Int) : Option Binary64 := ofRatio? (n < 0) n.natAbs 1

def mul? (x y : Binary64) : Option Binary64 :=
  ofRatio? (x.negative != y.negative) (x.ratio.1 * y.ratio.1) (x.ratio.2 * y.ratio.2)

def div? (x y : Binary64) : Option Binary64 :=
  ofRatio? (x.negative != y.negative) (x.ratio.1 * y.ratio.2) (x.ratio.2 * y.ratio.1)

def toInt? (x : Binary64) : Option Int :=
  let (n, d) := x.ratio
  if n % d = 0 then some (if x.negative then -(n / d : Nat) else (n / d : Nat)) else none

/-- The nearest number to the quotient in the format of 32 bits; nothing past its largest. -/
def singleOfRatio? (negative : Bool) (num den : Nat) : Option Binary64 :=
  let k := Format.single.nearest num den
  if k < Format.single.finite then
    let (m, e) := Format.single.magnitude k
    let (n, d) := scale m 1 e
    ofRatio? negative n d
  else none

def toSingle? (x : Binary64) : Option Binary64 :=
  singleOfRatio? x.negative x.ratio.1 x.ratio.2

end Binary64

end RemoteCall.Numeric
