import RemoteCall.Yaml.Node.Composer
import RemoteCall.Json.Basic
import RemoteCall.Numeric.Decimal

/-!
The JSON value that a YAML document stands for. A plain scalar is read as null, a truth value or a
number where it is written like one, and every other scalar is text.
-/

namespace RemoteCall.Yaml

open Numeric

/-! ### Plain scalars -/

def isNullWord (s : String) : Bool := s ∈ ["null", "Null", "NULL", "~"]

def boolWord? (s : String) : Option Bool :=
  if s ∈ ["true", "True", "TRUE"] then some true
  else if s ∈ ["false", "False", "FALSE"] then some false
  else none

/-- Two or more decimal digits, the first of them zero, are text. -/
def isPadded (cs : List Char) : Bool :=
  match cs with
  | '0' :: d :: ds => (d :: ds).all isDigit
  | _ => false

/-- A whole number without sign, in decimal digits or in those that a lead names. -/
def magnitude? : List Char → Option Nat
  | '0' :: 'x' :: ds => natOfDigits? 16 ds
  | '0' :: 'o' :: ds => natOfDigits? 8 ds
  | '0' :: 'b' :: ds => natOfDigits? 2 ds
  | ds => if isPadded ds then none else natOfDigits? 10 ds

def whole? : List Char → Option Int
  | '-' :: cs => (magnitude? cs).map fun n => -(n : Int)
  | '+' :: cs => (magnitude? cs).map Int.ofNat
  | cs => (magnitude? cs).map Int.ofNat

def unsigned : List Char → List Char
  | '+' :: cs => cs
  | '-' :: cs => cs
  | cs => cs

def isUnbounded (s : String) : Bool :=
  s ∈ [".inf", ".Inf", ".INF", "+.inf", "+.Inf", "+.INF", "-.inf", "-.Inf", "-.INF", ".nan",
    ".NaN", ".NAN"]

/-- A fraction; what is no finite number has no JSON form but null. -/
def fraction? (s : String) : Option Json :=
  if isUnbounded s then some .null
  else (Binary64.ofText? s.toList).map .float

/-- A whole number of 64 bits. One past these, but not past 128 bits, has no JSON form; longer ones
are no whole numbers. -/
def wholeJson? (s : String) : Option (Except Obstruction Json) := do
  let n ← whole? s.toList
  match Integer.ofInt? n with
  | some n => some (.ok (.integer n))
  | none => if -(pow2 127 : Int) ≤ n ∧ n < pow2 128 then some (.error .hugeInteger) else none

def plainJson (s : String) : Except Obstruction Json :=
  if s = "" || isNullWord s then .ok .null
  else
    match boolWord? s, wholeJson? s with
    | some b, _ => .ok (.bool b)
    | none, some v => v
    | none, none =>
      if isPadded (unsigned s.toList) then .ok (.string s)
      else .ok ((fraction? s).getD (.string s))

/-! ### Tags -/

/-- Tags that a document gives a meaning of its own; there is none for them here. -/
def isLocalTag : Option String → Bool
  | some tag => tag.startsWith "!"
  | none => false

/-- What a scalar stands for. The tags of truth values, numbers and null ask for one; any other tag
makes it text. -/
def scalarJson (tag : Option String) (s : String) (plain : Bool) : Except Obstruction Json :=
  let orFail (v : Option Json) : Except Obstruction Json :=
    match v with
    | some v => .ok v
    | none => .error .scalarKind
  match tag with
  | none => if plain then plainJson s else .ok (.string s)
  | some tag =>
    if isLocalTag (some tag) then .error .localTag
    else if tag = "tag:yaml.org,2002:bool" then orFail ((boolWord? s).map .bool)
    else if tag = "tag:yaml.org,2002:int" then (wholeJson? s).getD (.error .scalarKind)
    else if tag = "tag:yaml.org,2002:float" then orFail (fraction? s)
    else if tag = "tag:yaml.org,2002:null" then orFail (if isNullWord s then some .null else none)
    else .ok (.string s)

/-! ### Documents -/

/-- A reading that may follow only so many aliases more. -/
abbrev Expanding := StateT Nat (Except Obstruction)

namespace Node

/-- The node that an alias stands for; any other node stands for itself. -/
def follow (document : Node) : Node → Expanding Node
  | .alias slot => fun budget =>
    match budget, document.target? slot with
    | 0, _ => .error .repetition
    | budget + 1, some n => .ok (n, budget)
    | _, none => .error .undefinedAnchor
  | n => pure n

/-- The text of a key, whatever its tag. -/
def keyText (document n : Node) : Expanding String := do
  match ← follow document n with
  | .scalar _ text _ => return text
  | _ => fun _ => .error .keyKind

/-- The value of a node whose collections may be nested `depth` deep. -/
def value (document : Node) : Nat → Node → Expanding Json
  | depth, n => do
    match ← follow document n with
    | .alias _ => fun _ => .error .undefinedAnchor
    | .scalar p text plain => fun budget => (scalarJson p.tag text plain).map fun v => (v, budget)
    | .sequence p items =>
      if isLocalTag p.tag then fun _ => .error .localTag
      else
        match depth with
        | 0 => fun _ => .error .depth
        | depth + 1 => do
          let vs ← items.mapM fun n => value document depth n
          return .array vs
    | .mapping p entries =>
      if isLocalTag p.tag then fun _ => .error .localTag
      else
        match depth with
        | 0 => fun _ => .error .depth
        | depth + 1 => do
          let es ← entries.mapM fun (k, v) => do
            let key ← keyText document k
            return (key, ← value document depth v)
          return .ofEntries es
termination_by structural depth => depth

end Node

def depthLimit : Nat := 128

/-- How many aliases may be followed for each mark of a document. -/
def aliasLimit : Nat := 100

def Node.toJson (document : Node) : Except Obstruction Json :=
  (document.value depthLimit document (aliasLimit * document.size)).map Prod.fst

def parse (cs : List Char) : Except Obstruction Json := do
  let ts ← tokens cs
  let document ← compose ts
  document.toJson

end RemoteCall.Yaml
