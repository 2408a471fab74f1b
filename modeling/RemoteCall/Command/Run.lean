import RemoteCall.Client
import RemoteCall.Command.Arguments
import RemoteCall.Disk
import RemoteCall.Yaml.Printer

/-!
What each command does. Results go to the output, and what went wrong to the errors. Whatever a
server names them, attachments are written to the folder that was asked for, and a call that logged
in logs out again.
-/

namespace RemoteCall

inductive Complaint
  | failure (f : Failure)
  | input (f : Json.Flaw)
  | opening (path message : String)
  | reading (message : String)

def Complaint.account : Complaint → String
  | .failure f => f.account
  | .input f => "--input is not valid JSON: " ++ f.message
  | .opening path message => "cannot open " ++ path ++ ": " ++ message
  | .reading message => message

abbrev Job := ExceptT Complaint Program

namespace Job

def ask (q : Question) : Job q.Answer := liftM (Program.question q)

def say (line : String) : Job PUnit := ask (.print (line ++ "\n"))

def ofExcept {α : Type} (r : Except Complaint α) : Job α := ExceptT.mk (pure r)

def ofCalling {α : Type} (p : Calling α) : Job α := ExceptT.mk do
  let c ← Config.load
  let (r, _) ← p.run (Client.ofConfig c)
  return r.mapError .failure

/-! ### Attachments -/

/-- The name under which an attachment is written: the last of the names in its path. -/
def attachmentName (name : String) : String :=
  match Path.fileName? name.toList with
  | some cs => String.ofList cs
  | none => "attachment"

def write (path : String) (a : Attachment) : Job PUnit := do
  match ← ask (.writeFile path a.data) with
  | .ok _ => return ⟨⟩
  | .error message => throw (.failure (.io message))

def destination (folder : String) (a : Attachment) : String :=
  String.ofList (Path.join folder.toList (attachmentName a.name).toList)

def writeAll (m : Mode) (folder : String) : List Attachment → Job PUnit
  | [] => return ⟨⟩
  | a :: rest => do
    let path := destination folder a
    write path a
    if m = .human then
      ask (.report ("saved " ++ path ++ " (" ++ a.type ++ ")\n"))
    writeAll m folder rest

/-! ### Public functions -/

def tell (m : Mode) (b : Built) : Job PUnit := say (m.render b.toJson)

def time (m : Mode) : Job PUnit := do
  let b ← ofCalling Client.time
  match m, b with
  | .human, .typed d => say (((d.toJson.get? "full_time") >>= Json.text?).getD "")
  | _, _ => tell m b

def fortune (m : Mode) : Job PUnit := do tell m (← ofCalling Client.fortune)

/-- A line with a counter, which stands at the same place in each. -/
def counterLine (d : Datum) (name : String) : String :=
  let label := name ++ ":"
  String.ofList (label.toList ++ List.replicate (13 - label.length) ' ')
    ++ ((d.toJson.get? name).map Json.text).getD ""

def stats (m : Mode) : Job PUnit := do
  let b ← ofCalling Client.stats
  match m, b with
  | .human, .typed d =>
    ["users", "problems", "submissions", "exams", "contests"].forM fun name =>
      say (counterLine d name)
  | _, _ => tell m b

def logo (m : Mode) (path : Option String) : Job PUnit := do
  let a ← ofCalling Client.logo
  let path := path.getD (attachmentName a.name)
  write path a
  let size := ((Integer.ofInt? a.data.length).map Json.integer).getD .null
  match m with
  | .json =>
    say (Json.ofEntries
      [("name", .string a.name), ("type", .string a.type), ("bytes", size),
       ("path", .string path)]).pretty
  | _ =>
    say ("saved " ++ path ++ " (" ++ a.type ++ ", "
      ++ String.ofList (Numeric.decimalDigits a.data.length) ++ " bytes)")

/-! ### Calls -/

/-- A call between a login and a logout, if there is to be a login. What comes of the logout does
not count. -/
def attended (e : Errand) (input : Json) (streams : List Stream) : Calling Reply := do
  match e.login with
  | some l => let _ ← Client.login l
  | none => pure ⟨⟩
  let r ← Calling.outcome (Client.execute e.func input streams)
  if (← get).isAuthenticated then Client.logout true
  Calling.ofExcept r

/-- The input of a call, which is null where none is given. -/
def inputOf (text : Option String) : Except Complaint Json :=
  match text with
  | some s => (Json.parse s.toList).mapError .input
  | none => .ok .null

def openAll : List String → Job (List Stream)
  | [] => return []
  | path :: rest => do
    match ← ask (.openFile path) with
    | .ok s => return s :: (← openAll rest)
    | .error message => throw (.opening path message)

def call (m : Mode) (e : Errand) : Job PUnit := do
  let input ← ofExcept (inputOf e.input)
  let streams ← openAll e.files
  let r ← ofCalling (attended e input streams)
  say (m.render r.output)
  writeAll m e.folder r.attachments

/-! ### Conversions -/

def readAll (s : Stream) : Except Complaint (List UInt8) :=
  match s.fault with
  | some message => .error (.reading message)
  | none => .ok s.body

def source (path : Option String) : Job (List Char) := do
  let bs ←
    match path with
    | some path =>
      match ← ask (.openFile path) with
      | .ok s => ofExcept (readAll s)
      | .error message => throw (.reading message)
    | none => ask .input
  match Text.Utf8.decode? bs with
  | some cs => return cs
  | none => throw (.reading DiskFault.notText.message)

def converted : Direction → List Char → Except Failure String
  | .jsonToYaml, cs => (Yaml.ofJsonText cs).mapError fun f => .json (.flaw f)
  | .yamlToJson, cs => ((Yaml.parse cs).mapError .yaml).map fun v => v.text ++ "\n"

def convert (d : Direction) (path : Option String) : Job PUnit := do
  let cs ← source path
  let text ← ofExcept ((converted d cs).mapError .failure)
  ask (.print text)

/-! ### The program -/

def programVersion : String := "0.1.0"

def version : Mode → String
  | .json => (Json.object [("version", .string programVersion)]).text
  | _ => "jutge v" ++ programVersion

end Job

namespace Command

def run (m : Mode) : Command → Job PUnit
  | .time => Job.time m
  | .fortune => Job.fortune m
  | .stats => Job.stats m
  | .logo path => Job.logo m path
  | .call e => Job.call m e
  | .convert d path => Job.convert d path
  | .version => Job.say (Job.version m)
  | .greeting => do
    Job.say (Job.version .human)
    Job.say "\nRun 'jutge --help' for usage"

def usage : String :=
  "Usage: jutge [-v] [--json | --yaml] [COMMAND]\n\n"
    ++ "  time                        Show the server time\n"
    ++ "  fortune                     Show a fortune cookie\n"
    ++ "  stats                       Show homepage statistics\n"
    ++ "  logo [-o FILE]              Download the logo\n"
    ++ "  call FUNC [-i JSON] [-f FILE]... [--email EMAIL --password PASSWORD] [-d DIR]\n"
    ++ "                              Call any function\n"
    ++ "  convert (json-to-yaml | yaml-to-json) [FILE]\n"
    ++ "                              Convert between JSON and YAML\n"
    ++ "  version                     Show the version\n"
    ++ "  help [COMMAND]              Show this help\n"

/-- What the program does with its arguments, and the code that it ends with. -/
def program (args : List String) : Program UInt32 := do
  match Arguments.parse args with
  | .ok o =>
    match ← ExceptT.run (o.command.run o.mode) with
    | .ok _ => return 0
    | .error c => do
      Program.question (.report ("error: " ++ c.account ++ "\n"))
      return 1
  | .error .help => do
    Program.question (.print usage)
    return 0
  | .error .version => do
    Program.question (.print ("jutge " ++ Job.programVersion ++ "\n"))
    return 0
  | .error .usage => do
    Program.question (.report usage)
    return 2

end Command

end RemoteCall
