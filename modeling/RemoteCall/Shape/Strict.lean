import RemoteCall.Json.Parser
import RemoteCall.Shape.Basic

/-!
Reading a JSON value by a shape without any leniency. Each kind of shape has a reader of its own,
built from the readers of its parts; a shape is read by composing them. Entries of an object are
visited in their order, and unknown ones are passed over.
-/

namespace RemoteCall

abbrev Decoder := Json → Except Mismatch Datum

namespace Decoder

def wrongKind (v : Json) (expected : String) : Except Mismatch Datum :=
  .error (.wrongKind (.ofJson v) expected)

def integer (w : Width) : Decoder
  | .number (.integer n) =>
    if w.Holds n.val then .ok (.integer n) else .error (.outOfRange (.integer n.val) w.name)
  | v => wrongKind v w.name

/-- The nearest fraction to a number; nothing where the format of 32 bits cannot hold it. -/
def fractionOf : Precision → Json.Number → Option Numeric.Binary64
  | .double, .integer n => Numeric.Binary64.ofInt? n.val
  | .double, .float x => some x
  | .single, .integer n => Numeric.Binary64.singleOfRatio? (n.val < 0) n.val.natAbs 1
  | .single, .float x => x.toSingle?

def fraction (p : Precision) : Decoder
  | .number n => .ok (.fraction (fractionOf p n))
  | v => wrongKind v (match p with | .single => "f32" | .double => "f64")

def bool : Decoder
  | .bool b => .ok (.bool b)
  | v => wrongKind v "a boolean"

def char : Decoder
  | .string s =>
    match s.toList with
    | [c] => .ok (.char c)
    | _ => .error (.outOfRange (.text s) "a character")
  | v => wrongKind v "a character"

def text : Decoder
  | .string s => .ok (.text s)
  | v => wrongKind v "a string"

def textOr (default : String) : Decoder
  | .null => .ok (.text default)
  | .string s => .ok (.text (if s = "" then default else s))
  | v => wrongKind v "a string"

def unit : Decoder
  | .null => .ok .unit
  | v => wrongKind v "unit"

def option (d : Decoder) : Decoder
  | .null => .ok .absent
  | v => (d v).map .present

def items (d : Decoder) : List Json → Except Mismatch (List Datum)
  | [] => .ok []
  | v :: vs => do
    let x ← d v
    let xs ← items d vs
    return x :: xs

def list (d : Decoder) : Decoder
  | .array vs => (items d vs).map .list
  | v => wrongKind v "a sequence"

def byte (v : Json) : Except Mismatch UInt8 :=
  match integer (.unsigned 8) v with
  | .ok (.integer n) => .ok (UInt8.ofNat n.val.toNat)
  | .ok _ => .error .noneFits
  | .error e => .error e

/-- The bytes of a text, or a list of them. -/
def bytes : Decoder
  | .string s => .ok (.bytes (Text.Utf8.bytes s))
  | .array vs => (vs.mapM byte).map .bytes
  | v => wrongKind v "bytes"

/-- The elements in front, one for each reader; `total` is the whole count of readers. -/
def front (total : Nat) : List Decoder → List Json → Except Mismatch (List Datum)
  | [], _ => .ok []
  | ds, [] =>
    .error (.tooShort (total - ds.length)
      ("a tuple of size " ++ String.ofList (Numeric.decimalDigits total)))
  | d :: ds, v :: vs => do
    let x ← d v
    let xs ← front total ds vs
    return x :: xs

def tuple (ds : List Decoder) : Decoder
  | .array vs => do
    let xs ← front ds.length ds vs
    if ds.length < vs.length then throw (.tooLong vs.length)
    return .list xs
  | v => wrongKind v ("a tuple of size " ++ String.ofList (Numeric.decimalDigits ds.length))

def numericKey (w : Width) : List Char → Except Mismatch String
  | [] => .error .keyNotNumeric
  | c :: cs =>
    if c = '-' || Numeric.isDigit c then
      match Json.readNumber (c :: cs) with
      | .error (f, _) => .error (.faultyKey f)
      | .ok (none, _) => .error (.faultyKey .malformed)
      | .ok (some n, rest) => do
        let _ ← (integer w (.number n)).mapError .unfitKey
        if rest.isEmpty then return (Json.number n).text
        throw .keyNotNumeric
    else .error .keyNotNumeric

def key : KeyShape → String → Except Mismatch String
  | .text, k => .ok k
  | .integer w, k => numericKey w k.toList

def entries (k : KeyShape) (d : Decoder) : List (String × Json) →
    Except Mismatch (List (String × Datum))
  | [] => .ok []
  | (name, v) :: es => do
    let name ← key k name
    let x ← d v
    let rest ← entries k d es
    return (name, x) :: rest

def map (k : KeyShape) (d : Decoder) : Decoder
  | .object es => (entries k d es).map fun xs => .map (Entries.ofList xs)
  | v => wrongKind v "a map"

/-! ### Records -/

/-- A field with its reader and what stands for it where no entry gives it. -/
structure Slot where
  name : String
  read : Decoder
  default : Option Datum
  missing : Option Datum

def slot? (slots : List Slot) (name : String) : Option Slot :=
  slots.find? fun s => s.name = name

def given (slots : List Slot) : List (String × Json) → Except Mismatch (List (String × Datum))
  | [] => .ok []
  | (name, v) :: es =>
    match slot? slots name with
    | none => given slots es
    | some s => do
      let x ← s.read v
      let rest ← given slots es
      return (name, x) :: rest

/-- The fields in the order of declaration, from the values given and from what stands for the
missing ones. -/
def complete (given : List (String × Datum)) :
    List Slot → Except Mismatch (List (String × Datum))
  | [] => .ok []
  | s :: slots => do
    let x ←
      match Entries.get? given s.name with
      | some x => pure x
      | none =>
        match s.missing with
        | some x => pure x
        | none => throw (.missingField s.name)
    let rest ← complete given slots
    return (s.name, x) :: rest

/-- What a record of `n` fields is called where its elements do not suffice. -/
def elementsOf (name : String) (n : Nat) : String :=
  "struct " ++ name ++ " with " ++ String.ofList (Numeric.decimalDigits n)
    ++ (if n = 1 then " element" else " elements")

/-- The fields in the order of declaration, from the elements of an array; `read` elements were
taken before. -/
def positional (expected : String) (read : Nat) :
    List Slot → List Json → Except Mismatch (List (String × Datum))
  | [], _ => .ok []
  | s :: slots, [] =>
    match s.default with
    | some x => do
      let rest ← positional expected read slots []
      return (s.name, x) :: rest
    | none => .error (.tooShort read expected)
  | s :: slots, v :: vs => do
    let x ← s.read v
    let rest ← positional expected (read + 1) slots vs
    return (s.name, x) :: rest

def fielded (slots : List Slot) (es : List (String × Json)) : Except Mismatch Datum := do
  let given ← given slots es
  return .record (← complete given slots)

def record (name : String) (slots : List Slot) : Decoder
  | .object es => fielded slots es
  | .array vs => do
    let fields ← positional (elementsOf name slots.length) 0 slots vs
    if slots.length < vs.length then throw (.tooLong vs.length)
    return .record fields
  | v => wrongKind v ("struct " ++ name)

/-! ### Alternatives -/

/-- The content of an alternative in its style; there is none where the tag stands alone. -/
def content (style : Style) (d : Decoder) : Option Json → Except Mismatch Datum
  | none =>
    match style with
    | .plain => .ok .unit
    | .single => .error (.wrongKind .plainAlternative "newtype variant")
    | .listed => .error (.wrongKind .plainAlternative "tuple variant")
    | .fielded => .error (.wrongKind .plainAlternative "struct variant")
  | some v =>
    match style, v with
    | .plain, v => unit v
    | .single, v => d v
    | .listed, .array (x :: xs) => d (.array (x :: xs))
    | .listed, v => wrongKind v "tuple variant"
    | .fielded, .object es => d (.object es)
    | .fielded, v => wrongKind v "struct variant"

def alternative (alternatives : List (String × Style × Decoder)) (tag : String)
    (v : Option Json) : Except Mismatch Datum :=
  match Entries.get? alternatives tag with
  | none => .error (.unknownAlternative tag)
  | some (style, d) => (content style d v).map (.alternative tag style)

def choice (alternatives : List (String × Style × Decoder)) : Decoder
  | .string tag => alternative alternatives tag none
  | .object [(tag, v)] => alternative alternatives tag (some v)
  | .object _ => .error (.outOfRange .map "map with a single key")
  | v => wrongKind v "string or map"

def oneOf : List Decoder → Decoder
  | [], _ => .error .noneFits
  | d :: ds, v =>
    match d v with
    | .ok x => .ok x
    | .error _ => oneOf ds v

end Decoder

namespace Shape

/-- What stands for a missing field of this shape that has no default: an optional one is absent. -/
def missing : Shape → Option Datum
  | .option _ => some .absent
  | _ => none

mutual

def strict : Shape → Decoder
  | .any => fun v => .ok (.any v)
  | .integer w => Decoder.integer w
  | .fraction p => Decoder.fraction p
  | .bool => Decoder.bool
  | .char => Decoder.char
  | .text => Decoder.text
  | .textOr default => Decoder.textOr default
  | .bytes => Decoder.bytes
  | .unit => Decoder.unit
  | .option s => Decoder.option (strict s)
  | .list s => Decoder.list (strict s)
  | .tuple ss => Decoder.tuple (strictAll ss)
  | .map k s => Decoder.map k (strict s)
  | .record name fields => Decoder.record name (strictSlots fields)
  | .choice alternatives => Decoder.choice (strictAlternatives alternatives)
  | .oneOf ss => Decoder.oneOf (strictAll ss)
termination_by structural s => s

def strictAll : List Shape → List Decoder
  | [] => []
  | s :: ss => strict s :: strictAll ss
termination_by structural ss => ss

def strictSlots : List (Field Shape) → List Decoder.Slot
  | [] => []
  | ⟨name, s, default⟩ :: fields =>
    ⟨name, strict s, default, default.or s.missing⟩ :: strictSlots fields
termination_by structural fields => fields

def strictAlternatives : List (String × Style × Shape) → List (String × Style × Decoder)
  | [] => []
  | (tag, style, s) :: rest => (tag, style, strict s) :: strictAlternatives rest
termination_by structural rest => rest

end

end Shape

end RemoteCall
