import RemoteCall.Config
import RemoteCall.Payload

/-!
The client: its settings, its session and the replies that it keeps. A call is answered from what is
kept where that is allowed, and posted with the session otherwise. Logging in is posted without one,
and whatever comes of logging in or out, no earlier session survives it.
-/

namespace RemoteCall

inductive Session
  | anonymous
  | authenticated (m : Meta)
  deriving DecidableEq

def Session.meta? : Session → Option Meta
  | .anonymous => none
  | .authenticated m => some m

/-- `issued` counts the boundaries used so far. -/
structure Client where
  config : Config
  session : Session
  cache : Cache
  issued : Nat

/-- What a client does: it may fail, and keeps the state that it has reached even then. -/
abbrev Calling := ExceptT Failure (StateT Client Program)

namespace Calling

def ask (q : Question) : Calling q.Answer := liftM (Program.question q)

def ofExcept {α : Type} (r : Except Failure α) : Calling α := fun s => .done (r, s)

/-- The outcome of a part, whose failure does not count as one of the whole. -/
def outcome {α : Type} (p : Calling α) : Calling (Except Failure α) := fun s =>
  p.run s >>= fun r => .done (.ok r.1, r.2)

end Calling

namespace Client

def ofConfig (c : Config) : Client := ⟨c, .anonymous, .empty, 0⟩

def isAuthenticated (c : Client) : Bool := c.session.meta?.isSome

def setSession (s : Session) : Calling PUnit := modify fun c => { c with session := s }

def kept (key : String) (ttl : UInt64) : Calling (Option Reply) := do
  let now ← Calling.ask .now
  let c ← get
  let (hit, cache) := c.cache.lookup key ttl now
  set { c with cache }
  return hit.map fun (output, attachments) => ⟨output, attachments⟩

def keep (key : String) (r : Reply) : Calling PUnit := do
  let now ← Calling.ask .now
  modify fun c => { c with cache := c.cache.store key r.output r.attachments now }

def post (func : String) (input : Json) (streams : List Stream) : Calling Reply := do
  let stamp ← Calling.ask .stamp
  let c ← get
  let (form, issued) ←
    Calling.ofExcept (buildRequest stamp c.issued ⟨func, input, c.session.meta?⟩ streams)
  set { c with issued }
  match ← Calling.ask (.post c.config.apiUrl form) with
  | .ok response => Calling.ofExcept (Reply.ofResponse response)
  | .error message => throw (.transport message)

/-- The key under which the reply of a call is kept, and for how long; a call with files is not
kept. -/
def keeping (c : Client) (func : String) (input : Json) (streams : List Stream) :
    Option (String × UInt64) :=
  if streams.isEmpty then (c.config.ttl? func).map fun ttl => (Cache.key func input, ttl) else none

def execute (func : String) (input : Json) (streams : List Stream) : Calling Reply := do
  match (← get).keeping func input streams with
  | none => post func input streams
  | some (key, ttl) =>
    match ← kept key ttl with
    | some r => return r
    | none => do
      let r ← post func input streams
      keep key r
      return r

def call (func : String) (input : Json) (s : Shape) : Calling (Built × List Attachment) := do
  let r ← execute func input []
  return (s.build r.output, r.attachments)

/-! ### Sessions -/

/-- What an output declares to have gone wrong by a text of its own, unless that is empty. -/
def declared? (output : Json) : Option String :=
  (output.get? "error" >>= Json.text?).filter (· ≠ "")

def credentials (output : Json) : Except Failure Credentials :=
  match declared? output with
  | some message => .error (.unauthorized message)
  | none =>
    match (Credentials.shape.build output).require Credentials.shape with
    | .ok d =>
      match Credentials.ofDatum? d with
      | some c => .ok c
      | none => .error (.payload .noneFits)
    | .error m => .error (.payload m)

def login (l : Login) : Calling Credentials := do
  setSession .anonymous
  let r ← execute "auth.login" l.toJson []
  let c ← Calling.ofExcept (credentials r.output)
  setSession (.authenticated ⟨c.token, none⟩)
  return c

/-- Logs out. That the session was not valid is no failure, and a silent logout never fails. -/
def logout (silent : Bool) : Calling PUnit := do
  let r ← Calling.outcome (execute "auth.logout" .null [])
  setSession .anonymous
  match r with
  | .ok _ => return ⟨⟩
  | .error f => if f.isUnauthorized || silent then return ⟨⟩ else throw f

def restore (m : Meta) : Calling PUnit := setSession (.authenticated m)

/-! ### What is kept -/

def clearCache : Calling PUnit := modify fun c => { c with cache := .empty }

def removeExpired : Calling PUnit := do
  let now ← Calling.ask .now
  modify fun c => { c with cache := c.cache.removeExpired c.config.ttls now }

def getCache : Calling Cache := do
  removeExpired
  return (← get).cache

def setCache (text : String) : Calling PUnit := do
  let cache ← Calling.ofExcept ((Cache.parse text.toList).mapError .json)
  modify fun c => { c with cache }
  removeExpired

/-! ### Public functions -/

def fortune : Calling Built := do return (← call "misc.get_fortune" .null .text).1

def time : Calling Built := do return (← call "misc.get_time" .null serverTime).1

def stats : Calling Built := do return (← call "misc.get_homepage_stats" .null homepageStats).1

def single : List Attachment → Except Failure Attachment
  | [a] => .ok a
  | attachments => .error (.protocol (.attachmentCount attachments.length))

def logo : Calling Attachment := do
  let r ← execute "misc.get_logo" .null []
  Calling.ofExcept (single r.attachments)

end Client

end RemoteCall
