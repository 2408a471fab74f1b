import RemoteCall.Shape.Strict

/-!
Reading JSON text by a shape. The first problem in the order of the text is the one reported,
whether the text is faulty there or says something of the wrong kind; fields that the shape does
not know are passed over, and a known field may stand only once.
-/

namespace RemoteCall

inductive Fault
  | flaw (f : Json.Flaw)
  | mismatch (m : Mismatch)

/-- A reader of drafts whose containers may be nested as deep as the first argument says. -/
abbrev Drafter := Nat → Json.Draft → Except Fault Datum

namespace Drafter

open Json (Draft Flaw)

def flaw {α : Type} (f : Flaw) : Except Fault α := .error (.flaw f)

def mismatch {α : Type} (m : Mismatch) : Except Fault α := .error (.mismatch m)

def stopped (stop : Option Flaw) : Except Fault PUnit :=
  match stop with
  | none => .ok ⟨⟩
  | some f => flaw f

/-- The fault of a draft of another kind: its own, where it has one. -/
def wrongKind {α : Type} (expected : String) : Draft → Except Fault α
  | .null => mismatch (.wrongKind .null expected)
  | .bool b => mismatch (.wrongKind (.bool b) expected)
  | .number (some n) => mismatch (.wrongKind (.ofJson (.number n)) expected)
  | .number none => flaw .malformed
  | .string us =>
    match us.text? with
    | some cs => mismatch (.wrongKind (.text (String.ofList cs)) expected)
    | none => flaw .malformed
  | .array .. => mismatch (.wrongKind .list expected)
  | .object .. => mismatch (.wrongKind .map expected)
  | .keyless .. => mismatch (.wrongKind .map expected)
  | .broken f _ => flaw f

def scalar (expected : String) (d : Decoder) : Drafter
  | _, .null => (d .null).mapError .mismatch
  | _, .bool b => (d (.bool b)).mapError .mismatch
  | _, .number (some n) => (d (.number n)).mapError .mismatch
  | _, .string us =>
    match us.text? with
    | some cs => (d (.string (String.ofList cs))).mapError .mismatch
    | none => flaw .malformed
  | _, draft => wrongKind expected draft

def any : Drafter := fun depth draft =>
  match draft.value depth with
  | .ok v => .ok (.any v)
  | .error f => flaw f

def option (d : Drafter) : Drafter
  | _, .null => .ok .absent
  | depth, draft => (d depth draft).map .present

def items (d : Drafter) (depth : Nat) (stop : Option Flaw) :
    List Draft → Except Fault (List Datum)
  | [] => do
    stopped stop
    return []
  | v :: vs => do
    let x ← d depth v
    let xs ← items d depth stop vs
    return x :: xs

def list (d : Drafter) : Drafter
  | 0, .array .. => flaw .malformed
  | depth + 1, .array vs stop => (items d depth stop vs).map .list
  | _, draft => wrongKind "a sequence" draft

def byteOf : Datum → UInt8
  | .integer n => UInt8.ofNat n.val.toNat
  | _ => 0

def bytes : Drafter
  | _, .string us => .ok (.bytes us.bytes)
  | 0, .array .. => flaw .malformed
  | depth + 1, .array vs stop => do
    let ds ← items (scalar "u8" (Decoder.integer (.unsigned 8))) depth stop vs
    return .bytes (ds.map byteOf)
  | _, draft => wrongKind "bytes" draft

/-- What follows the last element that was asked for: a further one is malformed. -/
def surplus (stop : Option Flaw) : List Draft → Except Fault PUnit
  | [] => stopped stop
  | _ :: _ => flaw .malformed

/-- The elements in front, one for each reader. -/
def front (total depth : Nat) (stop : Option Flaw) :
    List Drafter → List Draft → Except Fault (List Datum × List Draft)
  | [], rest => .ok ([], rest)
  | ds, [] => do
    stopped stop
    mismatch (.tooShort (total - ds.length)
      ("a tuple of size " ++ String.ofList (Numeric.decimalDigits total)))
  | d :: ds, v :: vs => do
    let x ← d depth v
    let (xs, rest) ← front total depth stop ds vs
    return (x :: xs, rest)

def tuple (ds : List Drafter) : Drafter
  | 0, .array .. => flaw .malformed
  | depth + 1, .array vs stop => do
    let (xs, rest) ← front ds.length depth stop ds vs
    surplus stop rest
    return .list xs
  | _, draft =>
    wrongKind ("a tuple of size " ++ String.ofList (Numeric.decimalDigits ds.length)) draft

/-- The normal form of a key. A number is read where the key stands, and must fill it. -/
def key : KeyShape → Json.Key → Except Fault String
  | .text, k => k.text.mapError .flaw
  | .integer w, k =>
    let numeric := match k.source with
      | c :: _ => c = '-' || Numeric.isDigit c
      | [] => false
    if numeric then
      match Json.readNumber k.source with
      | .error (f, _) => flaw f
      | .ok (none, _) => flaw .malformed
      | .ok (some n, rest) => do
        let _ ← (Decoder.integer w (.number n)).mapError .mismatch
        if rest.head? = some '"' then return (Json.number n).text
        flaw .malformed
    else flaw .malformed

def entries (k : KeyShape) (d : Drafter) (depth : Nat) (stop : Option Flaw) :
    List (Json.Key × Draft) → Except Fault (List (String × Datum))
  | [] => do
    stopped stop
    return []
  | (name, v) :: es => do
    let name ← key k name
    let x ← d depth v
    let rest ← entries k d depth stop es
    return (name, x) :: rest

def map (k : KeyShape) (d : Drafter) : Drafter
  | 0, .object .. => flaw .malformed
  | 0, .keyless .. => flaw .malformed
  | _ + 1, .keyless stop _ => flaw stop
  | depth + 1, .object es stop =>
    (entries k d depth stop es).map fun xs => .map (Entries.ofList xs)
  | _, draft => wrongKind "a map" draft

/-! ### Records -/

/-- A field with its reader and what stands for it where no entry gives it. -/
structure Slot where
  name : String
  read : Drafter
  default : Option Datum
  missing : Option Datum

def slot? (slots : List Slot) (name : String) : Option Slot :=
  slots.find? fun s => s.name = name

/-- The values that the known entries give, each once; `seen` are the known names before. -/
def given (slots : List Slot) (depth : Nat) (stop : Option Flaw) (seen : List String) :
    List (Json.Key × Draft) → Except Fault (List (String × Datum))
  | [] => do
    stopped stop
    return []
  | (k, v) :: es => do
    let name ← k.text.mapError .flaw
    match slot? slots name with
    | none => do
      if let some f := v.passed then flaw f
      given slots depth stop seen es
    | some s => do
      if name ∈ seen then mismatch (.repeatedField name)
      let x ← s.read depth v
      let rest ← given slots depth stop (name :: seen) es
      return (name, x) :: rest

/-- The fields in the order of declaration. -/
def complete (given : List (String × Datum)) : List Slot → Except Fault (List (String × Datum))
  | [] => .ok []
  | s :: slots => do
    let x ←
      match Entries.get? given s.name with
      | some x => pure x
      | none =>
        match s.missing with
        | some x => pure x
        | none => mismatch (.missingField s.name)
    let rest ← complete given slots
    return (s.name, x) :: rest

/-- The fields in the order of declaration, from the elements of an array. -/
def positional (expected : String) (depth read : Nat) (stop : Option Flaw) :
    List Slot → List Draft → Except Fault (List (String × Datum) × List Draft)
  | [], rest => .ok ([], rest)
  | s :: slots, [] => do
    stopped stop
    match s.default with
    | some x => do
      let (fields, rest) ← positional expected depth read stop slots []
      return ((s.name, x) :: fields, rest)
    | none => mismatch (.tooShort read expected)
  | s :: slots, v :: vs => do
    let x ← s.read depth v
    let (fields, rest) ← positional expected depth (read + 1) stop slots vs
    return ((s.name, x) :: fields, rest)

def record (name : String) (slots : List Slot) : Drafter
  | 0, .object .. => flaw .malformed
  | 0, .keyless .. => flaw .malformed
  | _ + 1, .keyless stop _ => flaw stop
  | 0, .array .. => flaw .malformed
  | depth + 1, .object es stop => do
    let given ← given slots depth stop [] es
    return .record (← complete given slots)
  | depth + 1, .array vs stop => do
    let expected := Decoder.elementsOf name slots.length
    let (fields, rest) ← positional expected depth 0 stop slots vs
    surplus stop rest
    return .record fields
  | _, draft => wrongKind ("struct " ++ name) draft

/-! ### Alternatives -/

def unit : Drafter := scalar "unit" Decoder.unit

def content : Style → Drafter → Drafter
  | .plain, _ => unit
  | _, d => d

def choice (alternatives : List (String × Style × Drafter)) : Drafter
  | _, .string us =>
    match us.text? with
    | none => flaw .malformed
    | some cs =>
      match Entries.get? alternatives (String.ofList cs) with
      | none => mismatch (.unknownAlternative (String.ofList cs))
      | some (.plain, _) => .ok (.alternative (String.ofList cs) .plain .unit)
      | some _ => mismatch (.wrongKind .plainAlternative "content")
  | 0, .object .. => flaw .malformed
  | 0, .keyless .. => flaw .malformed
  | _, .keyless _ (some f) => flaw f
  | _, .keyless _ none => mismatch .noneFits
  | _, .object [] _ => flaw .malformed
  | depth + 1, .object ((k, v) :: es) stop => do
    let tag ← k.text.mapError .flaw
    match Entries.get? alternatives tag with
    | none => mismatch (.unknownAlternative tag)
    | some (style, d) => do
      let x ← content style d depth v
      if es.isEmpty then
        stopped stop
        return .alternative tag style x
      flaw .malformed
  | _, .broken f _ => flaw f
  | _, _ => flaw .malformed

end Drafter

namespace Shape

mutual

def drafter : Shape → Drafter
  | .any => Drafter.any
  | .integer w => Drafter.scalar w.name (Decoder.integer w)
  | .fraction p => Drafter.scalar "f64" (Decoder.fraction p)
  | .bool => Drafter.scalar "a boolean" Decoder.bool
  | .char => Drafter.scalar "a character" Decoder.char
  | .text => Drafter.scalar "a string" Decoder.text
  | .textOr default => Drafter.scalar "a string" (Decoder.textOr default)
  | .bytes => Drafter.bytes
  | .unit => Drafter.unit
  | .option s => Drafter.option (drafter s)
  | .list s => Drafter.list (drafter s)
  | .tuple ss => Drafter.tuple (drafterAll ss)
  | .map k s => Drafter.map k (drafter s)
  | .record name fields => Drafter.record name (drafterSlots fields)
  | .choice alternatives => Drafter.choice (drafterAlternatives alternatives)
  | .oneOf ss => fun depth draft =>
    match draft.value depth with
    | .ok v => (strict (.oneOf ss) v).mapError .mismatch
    | .error f => Drafter.flaw f
termination_by structural s => s

def drafterAll : List Shape → List Drafter
  | [] => []
  | s :: ss => drafter s :: drafterAll ss
termination_by structural ss => ss

def drafterSlots : List (Field Shape) → List Drafter.Slot
  | [] => []
  | ⟨name, s, default⟩ :: fields =>
    ⟨name, drafter s, default, default.or s.missing⟩ :: drafterSlots fields
termination_by structural fields => fields

def drafterAlternatives : List (String × Style × Shape) → List (String × Style × Drafter)
  | [] => []
  | (tag, style, s) :: rest => (tag, style, drafter s) :: drafterAlternatives rest
termination_by structural rest => rest

end

def parse (s : Shape) (cs : List Char) : Except Fault Datum := do
  let (draft, trailing) := Json.readText cs
  let d ← s.drafter Json.depthLimit draft
  if let some f := trailing then Drafter.flaw f
  return d

end Shape

end RemoteCall
