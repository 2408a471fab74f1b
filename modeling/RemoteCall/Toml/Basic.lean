import RemoteCall.Json.Basic

/-!
TOML values, and how tables grow. A table remembers how it came to be, since that decides by what it
may be extended.
-/

namespace RemoteCall.Toml

/-- How a table came to be: as part of the name of another one, as part of a dotted key, by a header
of its own, or in braces. -/
inductive Origin
  | passed
  | dotted
  | header
  | inline
  deriving DecidableEq

/-- A moment is a date, a time, or both; a fraction is absent where it is no finite number. -/
inductive Value
  | text (s : String)
  | integer (n : Int)
  | fraction (x : Option Numeric.Binary64)
  | bool (b : Bool)
  | moment (s : String)
  | array (items : List Value)
  | table (origin : Origin) (entries : List (String × Value))
  | tables (items : List (List (String × Value)))

abbrev Table := Entries Value

namespace Table

/-- Changes the table that a path leads to. Tables that are missing on the way are made, those in
braces stay as they are, and of several tables under one name the last one counts. A dotted key
passes neither a table with a header nor several tables. -/
def descend (dotted : Bool) (change : Origin → Table → Option Table) (origin : Origin) :
    List String → Table → Option Table
  | [], t => change origin t
  | name :: path, t =>
    match t.get? name with
    | none => do
      let origin := if dotted then .dotted else .passed
      let child ← descend dotted change origin path []
      return t.put name (.table origin child)
    | some (.table .inline _) => none
    | some (.table origin child) =>
      if dotted && origin = .header then none
      else do
        let child ← descend dotted change origin path child
        return t.put name (.table origin child)
    | some (.tables items) =>
      if dotted then none
      else do
        let child ← descend dotted change .header path (items.getLastD [])
        return t.put name (.tables (items.dropLast ++ [child]))
    | some _ => none

/-- Adds a value under a key in a table; a dotted key adds to tables made by such keys only. -/
def addKey (path : List String) (v : Value) (t : Table) : Option Table :=
  let name := path.getLastD ""
  let way := path.dropLast
  descend true
    (fun origin t =>
      if decide (origin = .dotted) == way.isEmpty then none
      else if (t.get? name).isSome then none
      else some (t.put name v))
    .header way t

/-- What a table with a header starts from: nothing, or what its name was passed for before. -/
def opened (name : String) : List String → Table → Option Table
  | [], t =>
    match t.get? name with
    | none => some []
    | some (.table .passed child) => some child
    | some _ => none
  | step :: way, t =>
    match t.get? step with
    | none => some []
    | some (.table .inline _) => none
    | some (.table _ child) => opened name way child
    | some (.tables items) => opened name way (items.getLastD [])
    | some _ => none

def addTable (t : Table) (path : List String) (child : Table) : Option Table :=
  descend false (fun _ t => some (t.put (path.getLastD "") (.table .header child))) .header
    path.dropLast t

def appendTable (t : Table) (path : List String) (child : Table) : Option Table :=
  let name := path.getLastD ""
  descend false
    (fun _ t =>
      match t.get? name with
      | none => some (t.put name (.tables [child]))
      | some (.tables items) => some (t.put name (.tables (items ++ [child])))
      | some _ => none)
    .header path.dropLast t

end Table

namespace Value

mutual

/-- The JSON form of a value. A whole number past 64 bits has none, and stands as null. -/
def toJson : Value → Json
  | .text s => .string s
  | .integer n =>
    match Integer.ofInt? n with
    | some n => .integer n
    | none => .null
  | .fraction x => .ofFloat? x
  | .bool b => .bool b
  | .moment s => .object [("moment", .string s)]
  | .array items => .array (itemsJson items)
  | .table _ entries => .object (entriesJson entries)
  | .tables items => .array (tablesJson items)

def itemsJson : List Value → List Json
  | [] => []
  | v :: vs => v.toJson :: itemsJson vs

def entriesJson : List (String × Value) → List (String × Json)
  | [] => []
  | (k, v) :: es => (k, v.toJson) :: entriesJson es

def tablesJson : List (List (String × Value)) → List Json
  | [] => []
  | es :: ts => .object (entriesJson es) :: tablesJson ts

end

end Value

end RemoteCall.Toml
