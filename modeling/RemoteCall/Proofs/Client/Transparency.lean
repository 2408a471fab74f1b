import RemoteCall.Proofs.Client.Operation

/-!
Keeping replies changes no result. Where the network answers by function, input and files alone,
what is kept is always what it would answer now. Main statement: a run returns step by step what the
same run returns that keeps nothing.
-/

namespace RemoteCall

open Multipart (Part received)

/-- What a request asks for, whoever asks. -/
structure Invocation where
  func : String
  input : Json
  files : List Part

/-- The invocation that is read of a form, where it can be read. -/
def Invocation.ofForm? (form : Multipart.Form) : Option Invocation :=
  form.said?.map fun (e, files) => ⟨e.func, e.input, files⟩

/-- A network answers every post by its invocation, whatever was posted before. -/
def Answers (network : List Post → Except String Response)
    (answer : Option Invocation → Except String Response) : Prop :=
  ∀ posts p, network (posts ++ [p]) = answer (Invocation.ofForm? p.form)

namespace Call

/-- The invocation that is read of a call. -/
def invocation? (q : Call) : Option Invocation :=
  (q.envelope none).reread.map fun e =>
    ⟨e.func, e.input, (Stream.files 0 q.streams).map received⟩

/-- What comes of a call that is posted. -/
def answered (answer : Option Invocation → Except String Response) (q : Call) :
    Except Failure Reply :=
  match q.streams.findSome? Stream.fault with
  | some message => .error (.io message)
  | none => Reply.receive (answer q.invocation?)

end Call

/-- The session is not part of what is asked for. -/
theorem Sends.invocation {form : Multipart.Form} {q : Call} {m : Option Meta}
    (h : Sends form (q.envelope m) q.streams) : Invocation.ofForm? form = q.invocation? := by
  rw [Invocation.ofForm?, h.said?_eq, Call.invocation?, Envelope.reread, Envelope.reread]
  simp only [Call.envelope]
  cases q.input.reread 126 <;> rfl

/-- All that is kept is what would be answered now. -/
def Truthful (answer : Option Invocation → Except String Response) (c : Cache) : Prop :=
  ∀ key entry, (key, entry) ∈ c.entries → ∀ q : Call, q.streams = [] → q.key = key →
    q.answered answer = .ok ⟨entry.output, entry.attachments⟩

section

variable {answer : Option Invocation → Except String Response} {s t : State} {q : Call}
  {r : Except Failure Reply}

theorem Fetched.answered {p : Post} (hn : Answers s.world.network answer) (h : Fetched s q p r) :
    r = q.answered answer := by
  rw [h.reply, hn, h.sends.invocation, Call.answered, h.read]

/-- Kept or not, the reply of a call is the one that would be answered now. -/
theorem Executed.answered (hn : Answers s.world.network answer)
    (hc : Truthful answer s.client.cache) (h : Executed s q r t) : r = q.answered answer := by
  rcases h.fetched_or with
    ⟨p, -, hf⟩ | ⟨-, ⟨reply, epoch, hs, rfl, hm⟩ | ⟨message, hm, rfl⟩⟩
  · exact hf.answered hn
  · exact (hc _ _ hm q hs rfl).symm
  · rw [Call.answered, hm]

theorem Executed.truthful (hn : Answers s.world.network answer)
    (hc : Truthful answer s.client.cache) (h : Executed s q r t) :
    Truthful answer t.client.cache := by
  intro key entry hm q' hs' hk
  rcases h.mem_cache hm with hm | ⟨reply, epoch, p, he, hs, -, hf⟩
  · exact hc key entry hm q' hs' hk
  · cases he
    exact Call.key_inj hk hs' hs ▸ (hf.answered hn).symm

end

/-! ### Two runs -/

/-- The operation with keeping switched off. -/
def Operation.uncached : Operation → Operation
  | .configure config => .configure { config with useCache := false }
  | o => o

/-- What an operation returns, but for what is kept itself. -/
def Event.shown (e : Event) : Except Failure Yield :=
  e.result.map fun
    | .cache _ => .nothing
    | y => y

/-- The states of two runs, of which the second keeps nothing. -/
structure Agree (answer : Option Invocation → Except String Response) (s t : State) : Prop where
  session : s.client.session = t.client.session
  off : t.client.config.useCache = false
  answers : Answers s.world.network answer
  answers' : Answers t.world.network answer
  truthful : Truthful answer s.client.cache
  truthful' : Truthful answer t.client.cache

variable {answer : Option Invocation → Except String Response}

theorem truthful_empty : Truthful answer .empty := by
  rintro _ _ ⟨⟩

theorem Truthful.mono {c c' : Cache} (h : Truthful answer c)
    (hm : ∀ e ∈ c'.entries, e ∈ c.entries) : Truthful answer c' :=
  fun key entry he => h key entry (hm (key, entry) he)

/-- An operation that calls a function, where what is kept is truthful: its result and the session
that it leaves are those of a posted call, and what is kept stays truthful. -/
theorem Event.called_step {e : Event} {q : Call} (hq : e.operation.call? = some q)
    (hn : Answers e.before.world.network answer) (hc : Truthful answer e.before.client.cache) :
    e.result = e.operation.conclude (q.answered answer) ∧
      e.after.client.session = e.operation.leaving (q.answered answer)
        (e.operation.entering e.before.client.session) ∧
      e.after.client.config = e.before.client.config ∧ Answers e.after.world.network answer ∧
      Truthful answer e.after.client.cache := by
  have hx := executed_execute e.called q
  have hr : e.reply q = q.answered answer := Executed.answered (s := e.called) hn hc hx
  have hc' := Executed.truthful (s := e.called) hn hc hx
  have hf := hx.frame
  rw [result_eq hq, after_eq hq, hr]
  refine ⟨rfl, ?_, hf.config, ?_, hc'⟩
  · exact congrArg (e.operation.leaving (q.answered answer)) hf.session
  · exact hf.network ▸ hn

theorem Agree.step {s t : State} (h : Agree answer s t) {o : Operation}
    (ho : ∀ text, o ≠ .setCache text) :
    Event.shown ⟨o, s⟩ = Event.shown ⟨o.uncached, t⟩ ∧
      Agree answer (Event.after ⟨o, s⟩) (Event.after ⟨o.uncached, t⟩) := by
  cases hq : o.call? with
  | none =>
    cases o with
    | setCache text => exact absurd rfl (ho text)
    | restore m => exact ⟨rfl, rfl, h.off, h.answers, h.answers', h.truthful, h.truthful'⟩
    | clearCache =>
      exact ⟨rfl, h.session, h.off, h.answers, h.answers', truthful_empty, truthful_empty⟩
    | getCache =>
      refine ⟨rfl, h.session, h.off, h.answers, h.answers', ?_, ?_⟩
      · exact h.truthful.mono fun e he => Cache.mem_removeExpired he
      · exact h.truthful'.mono fun e he => Cache.mem_removeExpired he
    | configure config =>
      exact ⟨rfl, h.session, rfl, h.answers, h.answers', h.truthful, h.truthful'⟩
    | _ => cases hq
  | some q =>
    have hu : o.uncached = o := by
      cases o with
      | configure config => cases hq
      | _ => rfl
    obtain ⟨hr, hs, -, hn, hc⟩ := Event.called_step (e := ⟨o, s⟩) hq h.answers h.truthful
    obtain ⟨hr', hs', hf, hn', hc'⟩ :=
      Event.called_step (e := ⟨o, t⟩) hq h.answers' h.truthful'
    rw [hu, Event.shown, Event.shown, hr, hr']
    refine ⟨rfl, ?_, by rw [hf]; exact h.off, hn, hn', hc, hc'⟩
    rw [hs, hs', h.session]

/-- Step by step a run returns the same as one that keeps nothing. -/
theorem Agree.run {s t : State} (h : Agree answer s t) {os : List Operation}
    (ho : ∀ o ∈ os, ∀ text, o ≠ .setCache text) :
    List.Forall₂ (fun e e' => e'.before.client.config.useCache = false ∧ e.shown = e'.shown ∧
        e.after.client.session = e'.after.client.session)
      (trace os s) (trace (os.map Operation.uncached) t) := by
  induction os generalizing s t with
  | nil => exact .nil
  | cons o os ih =>
    obtain ⟨ho, hos⟩ := List.forall_mem_cons.1 ho
    obtain ⟨hr, hn⟩ := h.step ho
    exact .cons ⟨h.off, hr, hn.session⟩ (ih hn hos)

theorem exec_post_keeping (s : State) (q : Call) (c : Cache) :
    q.post.exec (s.keeping c) = ((q.post.exec s).1, (q.post.exec s).2.keeping c) := by
  rw [exec_post, exec_post]
  simp only [State.keeping]
  cases buildRequest (s.world.stamps s.world.stamped) s.client.issued
    (q.envelope s.client.session.meta?) q.streams <;> rfl

/-- A call with files is posted, whatever is kept. -/
theorem exec_execute_of_streams {q : Call} (hs : q.streams ≠ []) (s : State) :
    q.execute.exec s = q.post.exec s := by
  have hk : s.client.keeping q.func q.input q.streams = none := keeping_eq_none_iff.2 (.inl hs)
  rw [Call.execute, Client.execute]
  simp only [Calling.exec_bind, Calling.exec_get, hk]
  rfl

/-- Where the network answers by function, input and files alone, a run that keeps replies returns
step by step what it returns with keeping switched off throughout, and leaves the same sessions.
What fails has failed when posted, or has a stream that cannot be read. A call with files neither
depends on what is kept nor changes it. -/
theorem keeping_is_transparent {answer : Option Invocation → Except String Response}
    (config : Config) {w w' : World} (hw : Answers w.network answer)
    (hw' : Answers w'.network answer) {ops : List Operation}
    (hops : ∀ o ∈ ops, ∀ text, o ≠ .setCache text) :
    List.Forall₂ (fun e e' => e'.before.client.config.useCache = false ∧ e.shown = e'.shown ∧
        e.after.client.session = e'.after.client.session)
      (trace ops ⟨.ofConfig config, w⟩)
      (trace (ops.map Operation.uncached) ⟨.ofConfig { config with useCache := false }, w'⟩) ∧
    (∀ (q : Call) (s : State) (f : Failure), (q.execute.exec s).1 = .error f →
      (∃ p, (q.execute.exec s).2.world.posted = s.world.posted ++ [p] ∧
        Fetched s q p (.error f)) ∨
        ∃ message, q.streams.findSome? Stream.fault = some message ∧ f = .io message) ∧
    ∀ (q : Call) (s : State) (c : Cache), q.streams ≠ [] →
      q.execute.exec (s.keeping c) = ((q.execute.exec s).1, (q.execute.exec s).2.keeping c) := by
  have hfresh :
      Agree answer ⟨.ofConfig config, w⟩
        ⟨.ofConfig { config with useCache := false }, w'⟩ :=
    ⟨rfl, rfl, hw, hw', truthful_empty, truthful_empty⟩
  refine ⟨hfresh.run hops, fun q s f hf => ?_, fun q s c hs => ?_⟩
  · rcases (executed_execute s q).fetched_or with
      ⟨p, hp, hq⟩ | ⟨-, ⟨r, _, -, hr, -⟩ | ⟨m, hm, hr⟩⟩
    · exact .inl ⟨p, hp, hf ▸ hq⟩
    · cases hr.symm.trans hf
    · cases hr.symm.trans hf
      exact .inr ⟨m, hm, rfl⟩
  · rw [exec_execute_of_streams hs, exec_execute_of_streams hs, exec_post_keeping]

/-- A world whose network answers by the invocation alone. -/
def World.serving (answer : Option Invocation → Except String Response) : World :=
  { World.answering (.error "") with
    network := fun posts =>
      match posts.getLast? with
      | some p => answer (Invocation.ofForm? p.form)
      | none => .error "" }

theorem answers_serving (answer : Option Invocation → Except String Response) :
    Answers (World.serving answer).network answer := by
  intro posts p
  simp [World.serving]

/-- Only one function is known, and it has no output. -/
def oneFunction : Option Invocation → Except String Response
  | some i =>
    if i.func = "f" then
      .ok ⟨200, some "multipart/x; boundary=b",
        [45, 45, 98, 13, 10, 13, 10, 123, 125, 13, 10, 45, 45, 98, 45, 45]⟩
    else .error "unknown function"
  | none => .error "unreadable"

/-- A function is called twice and kept, between a login that fails and the export of what is
kept. -/
def busyRun : List Operation :=
  [.configure (Config.default.withTtl "f" 3600), .login ⟨"u", "p"⟩,
    .execute ⟨"f", .null, []⟩,
    .restore ⟨"a", none⟩, .execute ⟨"f", .null, []⟩, .getCache, .logout true]

theorem keeping_is_transparent_busy :
    Answers (World.serving oneFunction).network oneFunction ∧
      (∀ o ∈ busyRun, ∀ text, o ≠ .setCache text) ∧
      List.Forall₂ (fun e e' => e'.before.client.config.useCache = false ∧
        e.shown = e'.shown ∧
          e.after.client.session = e'.after.client.session)
        (trace busyRun ⟨.ofConfig .default, .serving oneFunction⟩)
        (trace (busyRun.map Operation.uncached)
          ⟨.ofConfig { Config.default with useCache := false }, .serving oneFunction⟩) := by
  have hw := answers_serving oneFunction
  have hops : ∀ o ∈ busyRun, ∀ text, o ≠ .setCache text := by simp [busyRun]
  exact ⟨hw, hops, (keeping_is_transparent .default hw hw hops).1⟩

end RemoteCall
