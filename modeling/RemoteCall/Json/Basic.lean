import RemoteCall.Numeric.Binary
import RemoteCall.Entries

/-! JSON values. Numbers are whole numbers of 64 bits or binary fractions, and stay apart: `1` and
`1.0` are two values. -/

namespace RemoteCall

/-- The whole numbers of 64 bits, with a sign or without. -/
abbrev Integer := { n : Int // -9223372036854775808 ≤ n ∧ n < 18446744073709551616 }

namespace Integer

def ofInt? (n : Int) : Option Integer :=
  if h : -9223372036854775808 ≤ n ∧ n < 18446744073709551616 then some ⟨n, h⟩ else none

def ofByte (b : UInt8) : Integer :=
  ⟨b.toNat, by have := b.toNat_lt; omega⟩

end Integer

inductive Json.Number
  | integer (n : Integer)
  | float (x : Numeric.Binary64)
  deriving DecidableEq

/-- The entries of an object stand in the order of their keys. -/
inductive Json
  | null
  | bool (b : Bool)
  | number (n : Json.Number)
  | string (s : String)
  | array (items : List Json)
  | object (entries : List (String × Json))

namespace Json

def integer (n : Integer) : Json := .number (.integer n)

def float (x : Numeric.Binary64) : Json := .number (.float x)

/-- The value of a binary fraction that may lie past the largest finite one. -/
def ofFloat? : Option Numeric.Binary64 → Json
  | some x => .float x
  | none => .null

def isNull : Json → Bool
  | .null => true
  | _ => false

def text? : Json → Option String
  | .string s => some s
  | _ => none

def get? : Json → String → Option Json
  | .object entries, key => Entries.get? entries key
  | _, _ => none

/-- An object with the given entries; of several under one key the last one stays. -/
def ofEntries (entries : List (String × Json)) : Json := .object (Entries.ofList entries)

end Json

end RemoteCall
