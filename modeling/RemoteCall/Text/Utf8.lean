/-! UTF-8 over lists of bytes. Decoding is one pass that yields a scalar for each well-formed
sequence and a gap for each longest ill-formed start; the strict and the lossy readers differ only
in what they make of a gap. -/

namespace RemoteCall.Text.Utf8

def encodeChar (c : Char) : List UInt8 :=
  let n := c.toNat
  let tail (k : Nat) : UInt8 := UInt8.ofNat (0x80 + n / Nat.pow 64 k % 64)
  if n < 0x80 then [UInt8.ofNat n]
  else if n < 0x800 then [UInt8.ofNat (0xC0 + n / 64), tail 0]
  else if n < 0x10000 then [UInt8.ofNat (0xE0 + n / 4096), tail 1, tail 0]
  else [UInt8.ofNat (0xF0 + n / 262144), tail 2, tail 1, tail 0]

def encode (cs : List Char) : List UInt8 := cs.flatMap encodeChar

/-- Where the decoder stands between bytes: `within owed low high acc` owes `owed + 1` more bytes,
the next of them between `low` and `high`, to the bits `acc` read so far. -/
inductive State
  | start
  | within (owed low high acc : Nat)
  deriving DecidableEq

/-- The first byte of a sequence: what it yields at once, and the state after it. -/
def lead (b : Nat) : List (Option Char) × State :=
  if b < 0x80 then ([some (Char.ofNat b)], .start)
  else if 0xC2 ≤ b ∧ b ≤ 0xDF then ([], .within 0 0x80 0xBF (b - 0xC0))
  else if b = 0xE0 then ([], .within 1 0xA0 0xBF 0)
  else if b = 0xED then ([], .within 1 0x80 0x9F 0x0D)
  else if 0xE1 ≤ b ∧ b ≤ 0xEF then ([], .within 1 0x80 0xBF (b - 0xE0))
  else if b = 0xF0 then ([], .within 2 0x90 0xBF 0)
  else if 0xF1 ≤ b ∧ b ≤ 0xF3 then ([], .within 2 0x80 0xBF (b - 0xF0))
  else if b = 0xF4 then ([], .within 2 0x80 0x8F 4)
  else ([none], .start)

/-- One byte: what it completes, and the state after it. A byte that cannot continue a sequence
leaves a gap and starts anew. -/
def step : State → Nat → List (Option Char) × State
  | .start, b => lead b
  | .within owed low high acc, b =>
    if low ≤ b ∧ b ≤ high then
      let acc := acc * 64 + (b - 0x80)
      match owed with
      | 0 => ([some (Char.ofNat acc)], .start)
      | owed + 1 => ([], .within owed 0x80 0xBF acc)
    else
      let (out, q) := lead b
      (none :: out, q)

def scanFrom : State → List UInt8 → List (Option Char)
  | .start, [] => []
  | .within .., [] => [none]
  | q, b :: bs => (step q b.toNat).1 ++ scanFrom (step q b.toNat).2 bs

def scan (bs : List UInt8) : List (Option Char) := scanFrom .start bs

def decode? (bs : List UInt8) : Option (List Char) := (scan bs).mapM id

/-- The text with a replacement character for each gap. -/
def decodeLossy (bs : List UInt8) : List Char := (scan bs).map fun c => c.getD '\uFFFD'

def bytes (s : String) : List UInt8 := encode s.toList

end RemoteCall.Text.Utf8
