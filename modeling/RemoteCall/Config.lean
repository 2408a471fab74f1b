import RemoteCall.Disk.Path
import RemoteCall.Program
import RemoteCall.Toml.Parser
import RemoteCall.Toml.Printer

/-!
The settings of a client: where calls are posted to, whether replies are kept, and for how long.
They live in a file of the user, and a variable of the environment may override the address.
-/

namespace RemoteCall

structure Config where
  apiUrl : String
  useCache : Bool
  ttls : Entries UInt64

namespace Config

def defaultUrl : String := "https://api.jutge.org/api"

def urlVariable : String := "JUTGE_API_URL"

def default : Config := ⟨defaultUrl, true, []⟩

/-- How long replies of a function are kept, where they are kept at all. -/
def ttl? (c : Config) (func : String) : Option UInt64 :=
  if c.useCache then c.ttls.get? func else none

def withUrl (c : Config) (url : String) : Config := { c with apiUrl := url }

def withTtl (c : Config) (func : String) (seconds : UInt64) : Config :=
  { c with ttls := c.ttls.put func seconds }

/-- The address in the environment counts unless it is blank. -/
def withVariable (c : Config) (url : Option String) : Config :=
  match url with
  | some url => if Text.trim url.toList = [] then c else c.withUrl url
  | none => c

/-! ### Values -/

def word (n : UInt64) : Integer := ⟨n.toNat, by have := n.toNat_lt; omega⟩

def shape : Shape :=
  .record "ClientConfig"
    [⟨"api_url", .text, some (.text defaultUrl)⟩, ⟨"use_cache", .bool, some (.bool true)⟩,
     ⟨"client_ttls", .map .text .u64, some (.map [])⟩]

def toDatum (c : Config) : Datum :=
  .record
    [("api_url", .text c.apiUrl), ("use_cache", .bool c.useCache),
     ("client_ttls", .map (c.ttls.mapValues fun n => .integer (word n)))]

def toJson (c : Config) : Json := c.toDatum.toJson

def seconds? : Datum → Option UInt64
  | .integer n => some (UInt64.ofNat n.val.toNat)
  | _ => none

def ofDatum? : Datum → Option Config
  | .record [("api_url", .text url), ("use_cache", .bool on), ("client_ttls", .map es)] =>
    (es.mapM fun e => (seconds? e.2).map fun n => (e.1, n)).map fun ttls => ⟨url, on, ttls⟩
  | _ => none

/-! ### Text -/

/-- The settings of a text, where those that are not given take their defaults. -/
def parse (cs : List Char) : Option Config := do
  let t ← Toml.parse cs
  match shape.strict (Toml.Value.table .header t).toJson with
  | .ok d => ofDatum? d
  | .error _ => none

def entryChars (e : String × UInt64) : List Char :=
  Toml.keyChars e.1.toList ++ " = ".toList ++ Numeric.decimalDigits e.2.toNat ++ ['\n']

def chars (c : Config) : List Char :=
  "api_url = ".toList ++ Toml.stringChars c.apiUrl.toList ++ "\nuse_cache = ".toList
    ++ (if c.useCache then "true" else "false").toList ++ "\n\n[client_ttls]\n".toList
    ++ c.ttls.flatMap entryChars

def text (c : Config) : String := String.ofList c.chars

/-! ### Files -/

def parseBytes (bs : List UInt8) : Option Config := Text.Utf8.decode? bs >>= parse

def path? : Program (Option String) := do
  match ← Program.question (.variable "XDG_CONFIG_HOME") with
  | some folder =>
    if Path.isAbsolute folder.toList then return some (inFolder folder)
    else home
  | none => home
where
  inFolder (folder : String) : String :=
    String.ofList (Path.join folder.toList "jutge/config.toml".toList)
  home : Program (Option String) := do
    match ← Program.question (.variable "HOME") with
    | some home =>
      if home = "" then return none
      return some (inFolder (String.ofList (Path.join home.toList ".config".toList)))
    | none => return none

/-- The settings in the file at a path, if there is one that can be read. -/
def readFile? (path : String) : Program (Option Config) := do
  match ← Program.question (.openFile path) with
  | .ok s =>
    match s.read with
    | .ok bs => return parseBytes bs
    | .error _ => return none
  | .error _ => return none

/-- The settings of the user. Where their file is missing or cannot be read, the defaults count. -/
def load : Program Config := do
  let own ←
    match ← path? with
    | some path => readFile? path
    | none => pure none
  let url ← Program.question (.variable urlVariable)
  return (own.getD default).withVariable url

def ofFile (path : String) : Program (Except Failure Config) := do
  match ← Program.question (.openFile path) with
  | .error message => return .error (.config ("cannot read " ++ path ++ ": " ++ message))
  | .ok s =>
    match s.fault, Text.Utf8.decode? s.body with
    | some message, _ => return .error (.config ("cannot read " ++ path ++ ": " ++ message))
    | none, none => return .error (.config ("cannot read " ++ path ++ ": not a text"))
    | none, some cs =>
      match parse cs with
      | some c => return .ok c
      | none => return .error (.config ("cannot parse " ++ path))

/-- Writes the settings to a file, and makes the folders on the way. -/
def saveTo (c : Config) (path : String) : Program (Except Failure PUnit) := do
  let made ←
    match Path.parent? path.toList with
    | some folder => Program.question (.makeFolders (String.ofList folder))
    | none => pure (.ok ⟨⟩)
  match made with
  | .error message => return .error (.io message)
  | .ok _ => do
    let written ← Program.question (.writeFile path (Text.Utf8.encode c.chars))
    return written.mapError .io

def save (c : Config) : Program (Except Failure PUnit) := do
  match ← path? with
  | some path => c.saveTo path
  | none => return .error (.config "no configuration directory")

end Config

end RemoteCall
