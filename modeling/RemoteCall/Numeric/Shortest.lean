import RemoteCall.Numeric.Decimal

/-!
The fewest decimal digits that read back as a given binary number, and of those the nearest. The
numbers that read back form an interval, whose ends belong to it when the place is even; the grids
of one digit, two digits and so on are tried in turn.
-/

namespace RemoteCall.Numeric

/-- Decimal digits and the power of ten of the last of them. -/
structure Digits where
  digits : Nat
  exponent : Int
  deriving DecidableEq

namespace Digits

def strip : Nat → Digits → Digits
  | 0, d => d
  | fuel + 1, d =>
    if d.digits % 10 = 0 ∧ d.digits ≠ 0 then strip fuel ⟨d.digits / 10, d.exponent + 1⟩
    else d

end Digits

namespace Binary64

def perTen (num den : Nat) (e : Int) : Nat × Nat :=
  if 0 ≤ e then (num, den * pow10 e.toNat) else (num * pow10 (-e).toNat, den)

/-- The interval of quotients that round to a place, over one denominator: the lower end, the
number itself, the upper end, and the denominator. -/
structure Interval where
  low : Nat
  mid : Nat
  high : Nat
  den : Nat

def interval (x : Binary64) : Interval :=
  let k : Nat := x.place
  let quotient (k : Nat) : Nat × Nat :=
    let (m, e) := Format.double.magnitude k
    scale m 1 e
  let (n0, d0) := quotient (k - 1)
  let (n1, d1) := quotient k
  let (n2, d2) := quotient (k + 1)
  let d := max d0 (max d1 d2)
  let at' (n d' : Nat) : Nat := n * (d / d')
  ⟨at' n0 d0 + at' n1 d1, 2 * at' n1 d1, at' n1 d1 + at' n2 d2, 2 * d⟩

/-- The point of the grid of step `10 ^ e` nearest to the number, among those that read back. -/
def onGrid? (even : Bool) (i : Interval) (e : Int) : Option Digits :=
  let (mid, den) := perTen i.mid i.den e
  let (low, _) := perTen i.low i.den e
  let (high, _) := perTen i.high i.den e
  let below := mid / den
  let reads (d : Nat) : Bool :=
    let n := d * den
    if even then low ≤ n && n ≤ high else low < n && n < high
  let nearerBelow : Bool :=
    2 * (mid % den) < den || (2 * (mid % den) == den && below % 2 == 0)
  match reads below, reads (below + 1) with
  | true, true => some ⟨if nearerBelow then below else below + 1, e⟩
  | true, false => some ⟨below, e⟩
  | false, true => some ⟨below + 1, e⟩
  | false, false => none

/-- The first grid with a point that reads back, from the step `10 ^ e` down. -/
def shortestFrom (even : Bool) (i : Interval) : Nat → Int → Option Digits
  | 0, _ => none
  | grids + 1, e =>
    match onGrid? even i e with
    | some d => some d
    | none => shortestFrom even i grids (e - 1)

/-- The shortest digits of a magnitude; zero has the digit zero. Seventeen digits always suffice,
and the search starts one place above the first digit. -/
def shortest (x : Binary64) : Digits :=
  if x.place.val = 0 then ⟨0, 0⟩
  else
    let i := x.interval
    let first : Int := (decimalDigits (i.mid / i.den)).length
    let first := if i.den ≤ i.mid then first else 1 - (decimalDigits (i.den / i.mid)).length
    match shortestFrom (x.place.val % 2 == 0) i 20 first with
    | some d => d.strip 25
    | none => ⟨0, 0⟩

end Binary64

end RemoteCall.Numeric
