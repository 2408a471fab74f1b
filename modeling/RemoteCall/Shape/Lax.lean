import RemoteCall.Shape.Strict
import RemoteCall.Text.Blank

/-!
Reading a JSON value by a shape with leniency. Where the shape asks for a whole number, a fraction
or a truth value, one that is spelled as a text counts as well, and a fraction without fractional
part counts as a whole number. Entries that hold null count as missing.
-/

namespace RemoteCall

namespace Lax

/-- The whole number that a text spells between blanks, or that a fraction below `9e15` is. -/
def integer? : Json → Option Integer
  | .string s => Numeric.intOfDigits? 10 (Text.trim s.toList) >>= Integer.ofInt?
  | .number (.float x) => do
    let n ← x.toInt?
    if n.natAbs < 9000000000000000 then Integer.ofInt? n else none
  | _ => none

/-- The finite fraction that a text spells between blanks. -/
def fraction? : Json → Option Numeric.Binary64
  | .string s => Numeric.Binary64.ofText? (Text.trim s.toList)
  | _ => none

def bool? : Json → Option Bool
  | .string s =>
    let cs := Text.trim s.toList
    if cs = "true".toList then some true
    else if cs = "false".toList then some false
    else none
  | _ => none

/-- The value with whole numbers made of what spells or is one. -/
def asInteger (v : Json) : Json := ((integer? v).map Json.integer).getD v

def asFraction (v : Json) : Json := ((fraction? v).map Json.float).getD v

def asBool (v : Json) : Json := ((bool? v).map Json.bool).getD v

def present (es : List (String × Json)) : List (String × Json) :=
  es.filter fun e => !e.2.isNull

mutual

/-- The value without the entries that hold null, at every depth. -/
def withoutNulls : Json → Json
  | .array vs => .array (itemsWithoutNulls vs)
  | .object es => .object (entriesWithoutNulls es)
  | v => v

def itemsWithoutNulls : List Json → List Json
  | [] => []
  | v :: vs => withoutNulls v :: itemsWithoutNulls vs

def entriesWithoutNulls : List (String × Json) → List (String × Json)
  | [] => []
  | (k, v) :: es =>
    if v.isNull then entriesWithoutNulls es
    else (k, withoutNulls v) :: entriesWithoutNulls es

end

/-- The normal form of a key, which may spell its number with blanks around. -/
def key : KeyShape → String → Except Mismatch String
  | .text, k => .ok k
  | .integer w, k =>
    match asInteger (.string k) with
    | .number n => (Decoder.integer w (.number n)).map fun _ => (Json.number n).text
    | v => (Decoder.integer w v).map fun _ => k

def entries (k : KeyShape) (d : Decoder) : List (String × Json) →
    Except Mismatch (List (String × Datum))
  | [] => .ok []
  | (name, v) :: es => do
    let name ← key k name
    let x ← d v
    let rest ← entries k d es
    return (name, x) :: rest

/-- A map from the entries of an object; anything else is left to `otherwise`. -/
def map (k : KeyShape) (d otherwise : Decoder) : Decoder
  | .object es => (entries k d (present es)).map fun xs => .map (Entries.ofList xs)
  | v => otherwise v

/-- The elements in front; any more are passed over. -/
def tuple (ds : List Decoder) : Decoder
  | .array vs => (Decoder.front ds.length ds vs).map .list
  | v => Decoder.tuple ds v

/-- A record from the entries of an object; anything else is left to `otherwise`. -/
def record (slots : List Decoder.Slot) (otherwise : Decoder) : Decoder
  | .object es => Decoder.fielded slots (present es)
  | v => otherwise v

end Lax

namespace Shape

mutual

/-- The lenient reader of a shape. The content of an alternative is read without leniency. -/
def lax : Shape → Decoder
  | .any => fun v => .ok (.any (Lax.withoutNulls v))
  | .integer w => fun v => Decoder.integer w (Lax.asInteger v)
  | .fraction p => fun v => Decoder.fraction p (Lax.asFraction v)
  | .bool => fun v => Decoder.bool (Lax.asBool v)
  | .char => Decoder.char
  | .text => Decoder.text
  | .textOr default => Decoder.textOr default
  | .bytes => Decoder.bytes
  | .unit => Decoder.unit
  | .option s => Decoder.option (lax s)
  | .list s => Decoder.list (lax s)
  | .tuple ss => Lax.tuple (laxAll ss)
  | .map k s => Lax.map k (lax s) (strict (.map k s))
  | .record name fields => Lax.record (laxSlots fields) (strict (.record name fields))
  | .choice alternatives => strict (.choice alternatives)
  | .oneOf ss => fun v => strict (.oneOf ss) (Lax.withoutNulls v)
termination_by structural s => s

def laxAll : List Shape → List Decoder
  | [] => []
  | s :: ss => lax s :: laxAll ss
termination_by structural ss => ss

def laxSlots : List (Field Shape) → List Decoder.Slot
  | [] => []
  | ⟨name, s, default⟩ :: fields =>
    ⟨name, lax s, default, default.or s.missing⟩ :: laxSlots fields
termination_by structural fields => fields

end

end Shape

end RemoteCall
