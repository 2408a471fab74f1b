import RemoteCall.Json.Draft
import RemoteCall.Json.Printer
import RemoteCall.Text.Literal

/-!
Shapes of payloads, the typed values that fit them, and the ways in which a JSON value may fail to
fit. A typed value is the normal form of what was read: defaults are filled in, unknown entries are
gone, and the fields of a record stand in the order of its declaration.
-/

namespace RemoteCall

/-- The sizes of whole numbers that payloads are read into. -/
inductive Size
  | b8
  | b16
  | b32
  | b64
  deriving DecidableEq

namespace Size

def bits : Size → Nat
  | .b8 => 8
  | .b16 => 16
  | .b32 => 32
  | .b64 => 64

instance : OfNat Size 8 := ⟨.b8⟩

instance : OfNat Size 16 := ⟨.b16⟩

instance : OfNat Size 32 := ⟨.b32⟩

instance : OfNat Size 64 := ⟨.b64⟩

end Size

inductive Width
  | signed (size : Size)
  | unsigned (size : Size)
  deriving DecidableEq

namespace Width

open Numeric (pow2) in
def Holds : Width → Int → Prop
  | .signed size, n => -(pow2 (size.bits - 1) : Int) ≤ n ∧ n < pow2 (size.bits - 1)
  | .unsigned size, n => 0 ≤ n ∧ n < pow2 size.bits

instance : (w : Width) → (n : Int) → Decidable (w.Holds n)
  | .signed _, _ => inferInstanceAs (Decidable (_ ∧ _))
  | .unsigned _, _ => inferInstanceAs (Decidable (_ ∧ _))

def name : Width → String
  | .signed size => "i" ++ String.ofList (Numeric.decimalDigits size.bits)
  | .unsigned size => "u" ++ String.ofList (Numeric.decimalDigits size.bits)

end Width

inductive Precision
  | single
  | double
  deriving DecidableEq

inductive KeyShape
  | text
  | integer (w : Width)
  deriving DecidableEq

/-- How the content of an alternative is written: not at all, as one value, as a list of values, or
as fields. -/
inductive Style
  | plain
  | single
  | listed
  | fielded
  deriving DecidableEq

/-- Typed values. A fraction is absent where the format of 32 bits cannot hold it; the keys of a map
are written out, and its entries stand in their order. -/
inductive Datum
  | any (v : Json)
  | integer (n : Integer)
  | fraction (x : Option Numeric.Binary64)
  | bool (b : Bool)
  | char (c : Char)
  | text (s : String)
  | bytes (bs : List UInt8)
  | unit
  | absent
  | present (d : Datum)
  | list (ds : List Datum)
  | map (entries : List (String × Datum))
  | record (fields : List (String × Datum))
  | alternative (tag : String) (style : Style) (content : Datum)

/-- A field of a record, with the value that it takes where it is missing. -/
structure Field (σ : Type) where
  name : String
  content : σ
  default : Option Datum := none

/-- Shapes of payloads. `textOr` is a text for which null and the empty text stand for a given one;
`choice` is one of several named alternatives, `oneOf` the first of several shapes that fits. -/
inductive Shape
  | any
  | integer (w : Width)
  | fraction (p : Precision)
  | bool
  | char
  | text
  | textOr (default : String)
  | bytes
  | unit
  | option (s : Shape)
  | list (s : Shape)
  | tuple (ss : List Shape)
  | map (k : KeyShape) (s : Shape)
  | record (name : String) (fields : List (Field Shape))
  | choice (alternatives : List (String × Style × Shape))
  | oneOf (ss : List Shape)

namespace Shape

def i64 : Shape := .integer (.signed 64)

def u64 : Shape := .integer (.unsigned 64)

def f64 : Shape := .fraction .double

end Shape

def Field.required (name : String) (s : Shape) : Field Shape := ⟨name, s, none⟩

inductive Found
  | null
  | bool (b : Bool)
  | integer (n : Int)
  | fraction (x : Numeric.Binary64)
  | text (s : String)
  | list
  | map
  | plainAlternative

namespace Found

def ofJson : Json → Found
  | .null => .null
  | .bool b => .bool b
  | .number (.integer n) => .integer n
  | .number (.float x) => .fraction x
  | .string s => .text s
  | .array _ => .list
  | .object _ => .map

def describe : Found → String
  | .null => "null"
  | .bool b => "boolean \x60" ++ (if b then "true" else "false") ++ "\x60"
  | .integer n => "integer \x60" ++ String.ofList (Numeric.decimal n) ++ "\x60"
  | .fraction x => "floating point \x60" ++ String.ofList (Json.floatChars x) ++ "\x60"
  | .text s => "string " ++ Text.literal s
  | .list => "sequence"
  | .map => "map"
  | .plainAlternative => "unit variant"

end Found

/-- Why a value does not fit a shape. A key that stands for a number may itself be faulty, or spell
a number that does not fit. -/
inductive Mismatch
  | missingField (name : String)
  | repeatedField (name : String)
  | wrongKind (found : Found) (expected : String)
  | outOfRange (found : Found) (expected : String)
  | tooShort (length : Nat) (expected : String)
  | tooLong (length : Nat)
  | unknownAlternative (tag : String)
  | keyNotNumeric
  | faultyKey (f : Json.Flaw)
  | unfitKey (m : Mismatch)
  | noneFits

namespace Json.Flaw

def message : Flaw → String
  | .cutOff => "the text ends too early"
  | .malformed => "the text is malformed"

end Json.Flaw

namespace Mismatch

def message : Mismatch → String
  | .missingField name => "missing field \x60" ++ name ++ "\x60"
  | .repeatedField name => "duplicate field \x60" ++ name ++ "\x60"
  | .wrongKind found expected => "invalid type: " ++ found.describe ++ ", expected " ++ expected
  | .outOfRange found expected => "invalid value: " ++ found.describe ++ ", expected " ++ expected
  | .tooShort n expected =>
    "invalid length " ++ String.ofList (Numeric.decimalDigits n) ++ ", expected " ++ expected
  | .tooLong n =>
    "invalid length " ++ String.ofList (Numeric.decimalDigits n)
      ++ ", expected fewer elements in array"
  | .unknownAlternative tag => "unknown variant \x60" ++ tag ++ "\x60"
  | .keyNotNumeric => "invalid value: expected key to be a number in quotes"
  | .faultyKey f => f.message
  | .unfitKey m => m.message
  | .noneFits => "data did not match any variant"

end Mismatch

namespace Datum

def tagged (tag : String) : Style → Json → Json
  | .plain, _ => .string tag
  | _, content => .object [(tag, content)]

mutual

def toJson : Datum → Json
  | .any v => v
  | .integer n => .integer n
  | .fraction x => .ofFloat? x
  | .bool b => .bool b
  | .char c => .string (String.ofList [c])
  | .text s => .string s
  | .bytes bs => .array (bs.map fun b => .integer (Integer.ofByte b))
  | .unit => .null
  | .absent => .null
  | .present d => toJson d
  | .list ds => .array (itemsJson ds)
  | .map entries => .ofEntries (entriesJson entries)
  | .record fields => .ofEntries (entriesJson fields)
  | .alternative tag style content => tagged tag style (toJson content)

def itemsJson : List Datum → List Json
  | [] => []
  | d :: ds => toJson d :: itemsJson ds

def entriesJson : List (String × Datum) → List (String × Json)
  | [] => []
  | (k, d) :: es => (k, toJson d) :: entriesJson es

end

theorem itemsJson_eq_map (ds : List Datum) : itemsJson ds = ds.map toJson := by
  induction ds with
  | nil => rfl
  | cons d ds ih => rw [itemsJson, ih, List.map_cons]

theorem entriesJson_eq_map (es : List (String × Datum)) :
    entriesJson es = es.map fun e => (e.1, e.2.toJson) := by
  induction es with
  | nil => rfl
  | cons e es ih =>
    rw [entriesJson, ih]
    rfl

end Datum

end RemoteCall
