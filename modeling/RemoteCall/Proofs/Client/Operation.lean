import RemoteCall.Proofs.Client.Execution

/-!
Runs of a client: what it can be asked to do, one operation after another. Every operation that
calls a function is that call, after the session that it takes has been set, with its reply worked
up and another session left behind. Main statement: what holds at first and is kept by each
operation holds before every operation of a run.
-/

namespace RemoteCall

inductive Operation
  | execute (q : Call)
  | call (func : String) (input : Json) (s : Shape)
  | fortune
  | time
  | stats
  | logo
  | login (l : Login)
  | logout (silent : Bool)
  | restore (m : Meta)
  | clearCache
  | getCache
  | setCache (text : String)
  | configure (config : Config)

/-- What the operations return. -/
inductive Yield
  | nothing
  | reply (r : Reply)
  | built (b : Built) (attachments : List Attachment)
  | attachment (a : Attachment)
  | credentials (c : Credentials)
  | cache (c : Cache)

namespace Operation

def perform : Operation → Calling Yield
  | .execute q => do return .reply (← q.execute)
  | .call func input s => do
    let (b, attachments) ← Client.call func input s
    return .built b attachments
  | .fortune => do return .built (← Client.fortune) []
  | .time => do return .built (← Client.time) []
  | .stats => do return .built (← Client.stats) []
  | .logo => do return .attachment (← Client.logo)
  | .login l => do return .credentials (← Client.login l)
  | .logout silent => do
    Client.logout silent
    return .nothing
  | .restore m => do
    Client.restore m
    return .nothing
  | .clearCache => do
    Client.clearCache
    return .nothing
  | .getCache => do return .cache (← Client.getCache)
  | .setCache text => do
    Client.setCache text
    return .nothing
  | .configure config => do
    modify fun c => { c with config }
    return .nothing

/-! ### Operations that call a function -/

/-- The call that an operation makes. -/
def call? : Operation → Option Call
  | .execute q => some q
  | .call func input _ => some ⟨func, input, []⟩
  | .fortune => some ⟨"misc.get_fortune", .null, []⟩
  | .time => some ⟨"misc.get_time", .null, []⟩
  | .stats => some ⟨"misc.get_homepage_stats", .null, []⟩
  | .logo => some ⟨"misc.get_logo", .null, []⟩
  | .login l => some ⟨"auth.login", l.toJson, []⟩
  | .logout _ => some ⟨"auth.logout", .null, []⟩
  | _ => none

/-- The session with which an operation calls. -/
def entering : Operation → Session → Session
  | .login _ => fun _ => .anonymous
  | _ => id

/-- What an operation makes of what comes of its call. -/
def conclude : Operation → Except Failure Reply → Except Failure Yield
  | .execute _, r => r.map .reply
  | .call _ _ s, r => r.map fun r => .built (s.build r.output) r.attachments
  | .fortune, r => r.map fun r => .built (Shape.text.build r.output) []
  | .time, r => r.map fun r => .built (serverTime.build r.output) []
  | .stats, r => r.map fun r => .built (homepageStats.build r.output) []
  | .logo, r => (r.bind fun r => Client.single r.attachments).map .attachment
  | .login _, r => (r.bind fun r => Client.credentials r.output).map .credentials
  | .logout silent, .error f => if f.isUnauthorized || silent then .ok .nothing else .error f
  | _, _ => .ok .nothing

/-- The session that an operation leaves, where it found another one before its call. -/
def leaving : Operation → Except Failure Reply → Session → Session
  | .login _, r =>
    match r.bind fun r => Client.credentials r.output with
    | .ok c => fun _ => .authenticated ⟨c.token, none⟩
    | .error _ => id
  | .logout _, _ => fun _ => .anonymous
  | _, _ => id

end Operation

def State.withSession (s : State) (f : Session → Session) : State :=
  { s with client := { s.client with session := f s.client.session } }

theorem exec_setSession (session : Session) (s : State) :
    (Client.setSession session).exec s = (.ok ⟨⟩, s.withSession fun _ => session) :=
  rfl

theorem exec_call {func : String} {input : Json} {s t : State} {r : Except Failure Reply}
    (hx : (Client.execute func input []).exec s = (r, t)) (shape : Shape) :
    (Client.call func input shape).exec s =
      (r.map fun r => (shape.build r.output, r.attachments), t) := by
  simp only [Client.call, Calling.exec_bind, hx]
  cases r <;> rfl

theorem exec_login {l : Login} {s t : State} {r : Except Failure Reply}
    (hx : (Client.execute "auth.login" l.toJson []).exec (s.withSession fun _ => .anonymous) =
      (r, t)) :
    (Client.login l).exec s =
      (r.bind fun r => Client.credentials r.output,
        t.withSession ((Operation.login l).leaving r)) := by
  simp only [Client.login, Calling.exec_bind, exec_setSession, hx]
  cases r with
  | error f => rfl
  | ok r =>
    simp only [Calling.exec_ofExcept, Operation.leaving, Except.bind]
    cases Client.credentials r.output <;> rfl

theorem exec_logout {silent : Bool} {s t : State} {r : Except Failure Reply}
    (hx : (Client.execute "auth.logout" .null []).exec s = (r, t)) :
    (Client.logout silent).exec s =
      (match r with
        | .ok _ => .ok ⟨⟩
        | .error f => if f.isUnauthorized || silent then .ok ⟨⟩ else .error f,
        t.withSession fun _ => .anonymous) := by
  simp only [Client.logout, Calling.exec_bind, Calling.exec_outcome, exec_setSession, hx]
  cases r with
  | ok r => rfl
  | error f =>
    dsimp only
    cases f.isUnauthorized || silent <;> rfl

/-- An operation that calls a function does nothing else but take and leave a session. -/
theorem exec_perform {o : Operation} {q : Call} (h : o.call? = some q) {s t : State}
    {r : Except Failure Reply} (hx : q.execute.exec (s.withSession o.entering) = (r, t)) :
    o.perform.exec s = (o.conclude r, t.withSession (o.leaving r)) := by
  cases o with
  | execute q =>
    cases h
    change q.execute.exec s = (r, t) at hx
    simp only [Operation.perform, Calling.exec_bind, hx]
    cases r <;> rfl
  | call func input shape =>
    cases h
    change (Client.execute func input []).exec s = (r, t) at hx
    simp only [Operation.perform, Calling.exec_bind, exec_call hx]
    cases r <;> rfl
  | fortune =>
    cases h
    change (Client.execute _ _ []).exec s = (r, t) at hx
    simp only [Operation.perform, Client.fortune, Calling.exec_bind, exec_call hx]
    cases r <;> rfl
  | time =>
    cases h
    change (Client.execute _ _ []).exec s = (r, t) at hx
    simp only [Operation.perform, Client.time, Calling.exec_bind, exec_call hx]
    cases r <;> rfl
  | stats =>
    cases h
    change (Client.execute _ _ []).exec s = (r, t) at hx
    simp only [Operation.perform, Client.stats, Calling.exec_bind, exec_call hx]
    cases r <;> rfl
  | logo =>
    cases h
    change (Client.execute _ _ []).exec s = (r, t) at hx
    simp only [Operation.perform, Client.logo, Calling.exec_bind, hx]
    cases r with
    | error f => rfl
    | ok r =>
      simp only [Calling.exec_ofExcept, Operation.conclude, Except.bind]
      cases Client.single r.attachments <;> rfl
  | login l =>
    cases h
    change (Client.execute _ _ []).exec (s.withSession fun _ => .anonymous) = (r, t) at hx
    simp only [Operation.perform, Calling.exec_bind, exec_login hx, Operation.conclude]
    cases r.bind fun r => Client.credentials r.output <;> rfl
  | logout silent =>
    cases h
    change (Client.execute _ _ []).exec s = (r, t) at hx
    simp only [Operation.perform, Calling.exec_bind, exec_logout hx]
    cases r with
    | ok r => rfl
    | error f =>
      simp only [Operation.conclude]
      cases f.isUnauthorized || silent <;> rfl
  | restore | clearCache | getCache | setCache | configure => cases h

/-! ### Operations that call nothing -/

section

variable {o : Operation} (h : o.call? = none) (s : State)
include h

theorem frame_of_call?_eq_none :
    (o.perform.exec s).2.world.posted = s.world.posted ∧
      (o.perform.exec s).2.world.network = s.world.network ∧
      ((∀ m, o ≠ .restore m) → (o.perform.exec s).2.client.session = s.client.session) := by
  cases o with
  | restore m => exact ⟨rfl, rfl, fun hr => absurd rfl (hr m)⟩
  | setCache text =>
    simp only [Operation.perform, Client.setCache, Calling.exec_bind, Calling.exec_ofExcept]
    cases (Cache.parse text.toList).mapError Failure.json <;> exact ⟨rfl, rfl, fun _ => rfl⟩
  | clearCache | getCache | configure => exact ⟨rfl, rfl, fun _ => rfl⟩
  | _ => cases h

theorem mem_cache_of_call?_eq_none (hc : ∀ text, o ≠ .setCache text) {e : String × CacheEntry}
    (he : e ∈ (o.perform.exec s).2.client.cache.entries) : e ∈ s.client.cache.entries := by
  cases o with
  | setCache text => exact absurd rfl (hc text)
  | clearCache => cases he
  | getCache => exact Cache.mem_removeExpired he
  | restore | configure => exact he
  | _ => cases h

end

/-! ### Runs -/

/-- An operation, and the state that it finds. -/
structure Event where
  operation : Operation
  before : State

namespace Event

variable (e : Event)

def result : Except Failure Yield := (e.operation.perform.exec e.before).1

def after : State := (e.operation.perform.exec e.before).2

/-- The state in which the call of an operation is made. -/
def called : State := e.before.withSession e.operation.entering

/-- What comes of a call in the place of the operation's own. -/
def reply (q : Call) : Except Failure Reply := (q.execute.exec e.called).1

variable {e} {q : Call}

theorem result_eq (h : e.operation.call? = some q) :
    e.result = e.operation.conclude (e.reply q) := by
  rw [result, exec_perform h rfl]
  rfl

theorem after_eq (h : e.operation.call? = some q) :
    e.after = (q.execute.exec e.called).2.withSession (e.operation.leaving (e.reply q)) := by
  rw [after, exec_perform h rfl]
  rfl

/-- An operation posts its call, or nothing: then what is kept answers, or a stream cannot be
read. -/
theorem posts_cases (h : e.operation.call? = some q) :
    (∃ p, e.after.world.posted = e.before.world.posted ++ [p] ∧
      Fetched e.called q p (e.reply q)) ∨
    e.after.world.posted = e.before.world.posted ∧
      ((∃ reply epoch, q.streams = [] ∧ e.reply q = .ok reply ∧
          (q.key, ⟨reply.output, reply.attachments, epoch⟩) ∈
            e.before.client.cache.entries) ∨
        ∃ message, q.streams.findSome? Stream.fault = some message ∧
          e.reply q = .error (.io message)) := by
  rw [after_eq h]
  exact (executed_execute e.called q).fetched_or

/-- All that is posted in the course of an operation is its call. -/
theorem exists_posts (e : Event) :
    ∃ posts, e.after.world.posted = e.before.world.posted ++ posts ∧
      ∀ p ∈ posts, ∃ q, e.operation.call? = some q ∧ Fetched e.called q p (e.reply q) := by
  cases hq : e.operation.call? with
  | none =>
    exact ⟨[], by rw [List.append_nil]; exact (frame_of_call?_eq_none hq e.before).1, nofun⟩
  | some q =>
    rcases posts_cases hq with ⟨p, ha, hf⟩ | ⟨ha, -⟩
    · exact ⟨[p], ha, List.forall_mem_singleton.2 ⟨q, rfl, hf⟩⟩
    · exact ⟨[], by rw [List.append_nil, ha], nofun⟩

end Event

/-- The course of some operations, one after another. -/
def trace : List Operation → State → List Event
  | [], _ => []
  | o :: os, s =>
    let e : Event := ⟨o, s⟩
    e :: trace os e.after

/-- What holds at first and is kept by each operation holds before every one. -/
theorem trace_invariant {A : Operation → Prop} {P : List Event → State → Prop}
    (step : ∀ es e, A e.operation → P es e.before → P (es ++ [e]) e.after)
    {os : List Operation}
    (ha : ∀ o ∈ os, A o) {s : State} (init : P [] s) {before after : List Event} {e : Event}
    (h : trace os s = before ++ e :: after) : A e.operation ∧ P before e.before := by
  suffices hd : ∀ done, P done s → A e.operation ∧ P (done ++ before) e.before from hd [] init
  clear init
  induction os generalizing s before with
  | nil => cases before <;> cases h
  | cons o os ih =>
    obtain ⟨ho, hos⟩ := List.forall_mem_cons.1 ha
    intro done hd
    cases before with
    | nil =>
      cases h
      exact ⟨ho, by rwa [List.append_nil]⟩
    | cons b before =>
      simp only [trace, List.cons_append, List.cons.injEq] at h
      obtain ⟨rfl, h⟩ := h
      have hn := ih hos h (done ++ [⟨o, s⟩]) (step done ⟨o, s⟩ ho hd)
      rwa [List.append_assoc] at hn

/-- A world whose network answers every post alike, and whose clock stands still. -/
def World.answering (answer : Except String Response) : World where
  disk := ⟨[]⟩
  folder := []
  input := []
  environment := []
  clock _ := .clamp 0
  stamps _ := 0
  network _ := answer
  readings := 0
  stamped := 0
  posted := []
  output := ""
  errors := ""

end RemoteCall
