import RemoteCall.Json.Draft

/-! JSON values of JSON text. Of repeated keys the last one counts, and a text nested deeper than
the limit is malformed. -/

namespace RemoteCall.Json

def depthLimit : Nat := 127

namespace Draft

mutual

/-- The value of a draft whose containers may be nested `depth` deep. -/
def value (depth : Nat) : Draft → Except Flaw Json
  | .null => .ok .null
  | .bool b => .ok (.bool b)
  | .number (some n) => .ok (.number n)
  | .number none => .error .malformed
  | .string us =>
    match us.text? with
    | some cs => .ok (.string (String.ofList cs))
    | none => .error .malformed
  | .array items stop =>
    match depth with
    | 0 => .error .malformed
    | depth + 1 => do
      let vs ← itemValues depth items
      if let some f := stop then throw f
      return .array vs
  | .object entries stop =>
    match depth with
    | 0 => .error .malformed
    | depth + 1 => do
      let es ← entryValues depth entries
      if let some f := stop then throw f
      return .ofEntries es
  | .keyless stop _ => .error (if depth = 0 then .malformed else stop)
  | .broken f _ => .error f

def itemValues (depth : Nat) : List Draft → Except Flaw (List Json)
  | [] => .ok []
  | d :: ds => do
    let v ← value depth d
    let vs ← itemValues depth ds
    return v :: vs

def entryValues (depth : Nat) : List (Key × Draft) → Except Flaw (List (String × Json))
  | [] => .ok []
  | (k, d) :: es => do
    let key ← k.text
    let v ← value depth d
    let rest ← entryValues depth es
    return (key, v) :: rest

end

mutual

/-- The fault that a reader meets who only passes over the draft. -/
def passed : Draft → Option Flaw
  | .array items stop => (passedItems items).or stop
  | .object entries stop => (passedEntries entries).or stop
  | .keyless stop _ => some stop
  | .broken _ f => some f
  | _ => none

def passedItems : List Draft → Option Flaw
  | [] => none
  | d :: ds => (passed d).or (passedItems ds)

def passedEntries : List (Key × Draft) → Option Flaw
  | [] => none
  | (_, d) :: es => (passed d).or (passedEntries es)

end

end Draft

def parse (cs : List Char) : Except Flaw Json := do
  let (d, trailing) := readText cs
  let v ← d.value depthLimit
  if let some f := trailing then throw f
  return v

def parseBytes (bs : List UInt8) : Except Flaw Json :=
  match Text.Utf8.decode? bs with
  | some cs => parse cs
  | none => .error .malformed

end RemoteCall.Json
