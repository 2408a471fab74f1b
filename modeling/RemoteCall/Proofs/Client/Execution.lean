import RemoteCall.Client
import RemoteCall.Proofs.Cache.Expiry
import RemoteCall.Proofs.Request
import RemoteCall.World

/-!
What a client does in a world. Main statement: all that can come of a call, which is answered from
what is kept, or fails before it is sent, or is posted once.
-/

namespace RemoteCall

/-- A client and the world around it. -/
structure State where
  client : Client
  world : World

namespace Calling

variable {α β : Type}

/-- What comes of a part of a client's work, and the state that it leaves. -/
def exec (p : Calling α) (s : State) : Except Failure α × State :=
  let r := (p.run s.client).run s.world
  (r.1.1, ⟨r.1.2, r.2⟩)

variable (s : State)

@[simp] theorem exec_pure (a : α) : exec (pure a) s = (.ok a, s) := rfl

@[simp] theorem exec_throw (f : Failure) : exec (throw f : Calling α) s = (.error f, s) := rfl

@[simp] theorem exec_ofExcept (r : Except Failure α) : exec (ofExcept r) s = (r, s) := rfl

@[simp] theorem exec_get : exec get s = (.ok s.client, s) := rfl

@[simp] theorem exec_set (c : Client) : exec (set c) s = (.ok ⟨⟩, { s with client := c }) := rfl

@[simp] theorem exec_modify (f : Client → Client) :
    exec (modify f) s = (.ok ⟨⟩, { s with client := f s.client }) :=
  rfl

@[simp] theorem exec_ask (q : Question) :
    exec (ask q) s = (.ok (s.world.answer q).1, { s with world := (s.world.answer q).2 }) :=
  rfl

@[simp] theorem exec_outcome (p : Calling α) :
    exec (outcome p) s = (.ok (p.exec s).1, (p.exec s).2) := by
  simp only [exec, outcome, ExceptT.run]
  rw [Program.run_bind]
  rfl

theorem exec_bind (p : Calling α) (f : α → Calling β) :
    exec (p >>= f) s =
      match p.exec s with
      | (.ok a, t) => (f a).exec t
      | (.error e, t) => (.error e, t) := by
  have hr : (p >>= f).run s.client =
      p.run s.client >>= fun r => ExceptT.bindCont f r.1 r.2 := rfl
  simp only [exec, hr, Program.run_bind]
  cases ((p.run s.client).run s.world).1.1 with
  | ok a => rfl
  | error e => rfl

end Calling

/-! ### Calls -/

/-- A call that a client is asked for. -/
structure Call where
  func : String
  input : Json
  streams : List Stream

namespace Call

def envelope (q : Call) (m : Option Meta) : Envelope := ⟨q.func, q.input, m⟩

def key (q : Call) : String := Cache.key q.func q.input

def execute (q : Call) : Calling Reply := Client.execute q.func q.input q.streams

def post (q : Call) : Calling Reply := Client.post q.func q.input q.streams

/-- Calls without files are told apart by their keys. -/
theorem key_inj {q q' : Call} (h : q.key = q'.key) (hs : q.streams = []) (hs' : q'.streams = []) :
    q = q' := by
  obtain ⟨func, input, streams⟩ := q
  obtain ⟨func', input', streams'⟩ := q'
  obtain ⟨rfl, rfl⟩ := Cache.key_inj h
  cases hs
  cases hs'
  rfl

end Call

/-- What a client makes of what the network answers. -/
def Reply.receive : Except String Response → Except Failure Reply
  | .ok response => ofResponse response
  | .error message => .error (.transport message)

namespace State

def now (s : State) : Instant := s.world.clock s.world.readings

def ticked (s : State) : State :=
  { s with world := { s.world with readings := s.world.readings + 1 } }

def stamped (s : State) : State :=
  { s with world := { s.world with stamped := s.world.stamped + 1 } }

def sent (s : State) (issued : Nat) (p : Post) : State where
  client := { s.client with issued }
  world := { s.world with posted := s.world.posted ++ [p] }

def keeping (s : State) (cache : Cache) : State := { s with client := { s.client with cache } }

end State

/-- What comes of posting a call: a stream cannot be read, or one form is sent. -/
inductive Posted (s : State) (q : Call) : Except Failure Reply → State → Prop
  | unread {message : String} : q.streams.findSome? Stream.fault = some message →
    Posted s q (.error (.io message)) s.stamped
  | sent {form : Multipart.Form} {issued : Nat} : q.streams.findSome? Stream.fault = none →
    Sends form (q.envelope s.client.session.meta?) q.streams →
    Posted s q
      (Reply.receive (s.world.network (s.world.posted ++ [⟨s.client.config.apiUrl, form⟩])))
      (s.stamped.sent issued ⟨s.client.config.apiUrl, form⟩)

theorem exec_post (s : State) (q : Call) :
    q.post.exec s =
      match buildRequest (s.world.stamps s.world.stamped) s.client.issued
        (q.envelope s.client.session.meta?) q.streams with
      | .ok (form, issued) =>
        (Reply.receive (s.world.network (s.world.posted ++ [⟨s.client.config.apiUrl, form⟩])),
          s.stamped.sent issued ⟨s.client.config.apiUrl, form⟩)
      | .error f => (.error f, s.stamped) := by
  simp only [Call.post, Client.post, Calling.exec_bind, Calling.exec_ask, Calling.exec_get,
    Calling.exec_ofExcept, World.answer]
  rw [Call.envelope]
  cases buildRequest (s.world.stamps s.world.stamped) s.client.issued
    ⟨q.func, q.input, s.client.session.meta?⟩ q.streams with
  | error f => rfl
  | ok r =>
    obtain ⟨form, issued⟩ := r
    simp only [Calling.exec_set]
    cases s.world.network (s.world.posted ++ [⟨s.client.config.apiUrl, form⟩]) with
    | ok response => rfl
    | error message => rfl

theorem posted_post (s : State) (q : Call) :
    Posted s q (q.post.exec s).1 (q.post.exec s).2 := by
  rw [exec_post]
  cases hf : q.streams.findSome? Stream.fault with
  | some message =>
    rw [buildRequest_of_fault hf]
    exact .unread hf
  | none =>
    rw [buildRequest_of_read (List.findSome?_eq_none_iff.1 hf)]
    exact .sent hf (sends_encodeForm _ _ _ _)

/-- What comes of a call. A reply that is kept answers it; otherwise it is posted, and the reply
kept where that is allowed. -/
inductive Executed (s : State) (q : Call) : Except Failure Reply → State → Prop
  | kept {ttl : UInt64} {r : Reply} {cache : Cache} :
    q.streams = [] → s.client.config.ttl? q.func = some ttl →
    s.client.cache.lookup q.key ttl s.now = (some (r.output, r.attachments), cache) →
    Executed s q (.ok r) (s.ticked.keeping cache)
  | plain {r : Except Failure Reply} {t : State} :
    q.streams ≠ [] ∨ s.client.config.ttl? q.func = none → Posted s q r t → Executed s q r t
  | failed {ttl : UInt64} {cache : Cache} {f : Failure} {t : State} :
    q.streams = [] → s.client.config.ttl? q.func = some ttl →
    s.client.cache.lookup q.key ttl s.now = (none, cache) →
    Posted (s.ticked.keeping cache) q (.error f) t → Executed s q (.error f) t
  | fetched {ttl : UInt64} {cache : Cache} {r : Reply} {t : State} :
    q.streams = [] → s.client.config.ttl? q.func = some ttl →
    s.client.cache.lookup q.key ttl s.now = (none, cache) →
    Posted (s.ticked.keeping cache) q (.ok r) t →
    Executed s q (.ok r)
      (t.ticked.keeping (t.client.cache.store q.key r.output r.attachments t.now))

theorem exec_kept (key : String) (ttl : UInt64) (s : State) :
    (Client.kept key ttl).exec s =
      (.ok ((s.client.cache.lookup key ttl s.now).1.map fun r => ⟨r.1, r.2⟩),
        s.ticked.keeping (s.client.cache.lookup key ttl s.now).2) :=
  rfl

theorem keeping_eq_none_iff {c : Client} {q : Call} :
    c.keeping q.func q.input q.streams = none ↔ q.streams ≠ [] ∨
      c.config.ttl? q.func = none := by
  rw [Client.keeping]
  cases hs : q.streams with
  | nil => simp
  | cons s ss => simp

theorem keeping_eq_some_iff {c : Client} {q : Call} {key : String} {ttl : UInt64} :
    c.keeping q.func q.input q.streams = some (key, ttl) ↔
      q.streams = [] ∧ c.config.ttl? q.func = some ttl ∧ key = q.key := by
  rw [Client.keeping, Call.key]
  cases hs : q.streams with
  | nil => simp [eq_comm, and_comm]
  | cons s ss => simp

theorem executed_execute (s : State) (q : Call) :
    Executed s q (q.execute.exec s).1 (q.execute.exec s).2 := by
  rw [Call.execute, Client.execute]
  simp only [Calling.exec_bind, Calling.exec_get]
  cases hk : s.client.keeping q.func q.input q.streams with
  | none => exact .plain (keeping_eq_none_iff.1 hk) (posted_post s q)
  | some k =>
    obtain ⟨key, ttl⟩ := k
    obtain ⟨hs, ht, rfl⟩ := keeping_eq_some_iff.1 hk
    simp only [Calling.exec_bind, exec_kept]
    rcases hl : s.client.cache.lookup q.key ttl s.now with ⟨hit, cache⟩
    cases hit with
    | some r => exact .kept hs ht hl
    | none =>
      have hp := posted_post (s.ticked.keeping cache) q
      rw [Call.post] at hp
      simp only [Option.map_none, Calling.exec_bind]
      generalize (Client.post q.func q.input q.streams).exec (s.ticked.keeping cache) = p at hp ⊢
      obtain ⟨r, t⟩ := p
      cases r with
      | error f => exact .failed hs ht hl hp
      | ok r => exact .fetched hs ht hl hp

/-! ### What a call leaves -/

/-- What no call changes: the settings, the session and the network. -/
structure Frame (s t : State) : Prop where
  config : t.client.config = s.client.config
  session : t.client.session = s.client.session
  network : t.world.network = s.world.network

/-- A call that was posted with the session to the address of the settings, and what came of it. -/
structure Fetched (s : State) (q : Call) (p : Post) (r : Except Failure Reply) : Prop where
  read : q.streams.findSome? Stream.fault = none
  url : p.url = s.client.config.apiUrl
  sends : Sends p.form (q.envelope s.client.session.meta?) q.streams
  reply : r = Reply.receive (s.world.network (s.world.posted ++ [p]))

variable {s t : State} {q : Call} {r : Except Failure Reply}

namespace Posted

theorem frame (h : Posted s q r t) : Frame s t := by
  cases h with
  | unread h => exact ⟨rfl, rfl, rfl⟩
  | sent _ h => exact ⟨rfl, rfl, rfl⟩

theorem cache (h : Posted s q r t) : t.client.cache = s.client.cache := by
  cases h with
  | unread h => rfl
  | sent _ h => rfl

theorem fetched (h : Posted s q r t) :
    (∃ message, q.streams.findSome? Stream.fault = some message ∧ r = .error (.io message) ∧
      t.world.posted = s.world.posted) ∨
    ∃ p, t.world.posted = s.world.posted ++ [p] ∧ Fetched s q p r := by
  cases h with
  | unread h => exact .inl ⟨_, h, rfl, rfl⟩
  | sent hr h => exact .inr ⟨_, rfl, hr, rfl, h, rfl⟩

/-- Without streams a call is always sent, as it would be had nothing been kept. -/
theorem fetched_of_missed {cache : Cache} (h : Posted (s.ticked.keeping cache) q r t)
    (hs : q.streams = []) :
    ∃ p, t.world.posted = s.world.posted ++ [p] ∧ Fetched s q p r := by
  rcases h.fetched with ⟨message, hm, -, -⟩ | ⟨p, hp, hf⟩
  · rw [hs] at hm
    cases hm
  · exact ⟨p, hp, hf.read, hf.url, hf.sends, hf.reply⟩

end Posted

namespace Executed

theorem frame (h : Executed s q r t) : Frame s t := by
  cases h with
  | kept => exact ⟨rfl, rfl, rfl⟩
  | plain _ h => exact h.frame
  | failed _ _ _ h => exact ⟨h.frame.config, h.frame.session, h.frame.network⟩
  | fetched _ _ _ h => exact ⟨h.frame.config, h.frame.session, h.frame.network⟩

/-- A call makes one post, or else is answered by a live entry or has a stream that cannot be
read. -/
theorem posts (h : Executed s q r t) :
    (∃ p, t.world.posted = s.world.posted ++ [p] ∧ Fetched s q p r) ∨
    t.world.posted = s.world.posted ∧
      ((∃ ttl x, q.streams = [] ∧ s.client.config.ttl? q.func = some ttl ∧
          s.client.cache.live? q.key ttl s.now = some x ∧
            r = .ok ⟨x.output, x.attachments⟩) ∨
        ∃ message, q.streams.findSome? Stream.fault = some message ∧
          r = .error (.io message)) := by
  cases h with
  | @kept ttl r cache hs ht he =>
    obtain ⟨output, attachments⟩ := r
    have hl := Cache.looked_lookup s.client.cache q.key ttl s.now
    rw [he] at hl
    cases hl with
    | live hx => exact .inr ⟨rfl, .inl ⟨ttl, _, hs, ht, hx, rfl⟩⟩
  | plain _ h =>
    rcases h.fetched with ⟨message, hm, hr, hp⟩ | hf
    · exact .inr ⟨hp, .inr ⟨message, hm, hr⟩⟩
    · exact .inl hf
  | failed hs _ _ h => exact .inl (h.fetched_of_missed hs)
  | fetched hs _ _ h => exact .inl (h.fetched_of_missed hs)

/-- A call that is not posted is answered from what is kept, or has a stream that cannot be read. -/
theorem fetched_or (h : Executed s q r t) :
    (∃ p, t.world.posted = s.world.posted ++ [p] ∧ Fetched s q p r) ∨
    t.world.posted = s.world.posted ∧
      ((∃ reply epoch, q.streams = [] ∧ r = .ok reply ∧
          (q.key, ⟨reply.output, reply.attachments, epoch⟩) ∈ s.client.cache.entries) ∨
        ∃ message, q.streams.findSome? Stream.fault = some message ∧
          r = .error (.io message)) := by
  rcases h.posts with hf | ⟨hp, ⟨ttl, x, hs, -, hx, rfl⟩ | hm⟩
  · exact .inl hf
  · have he := Entries.mem_of_get? (Cache.live?_eq_some_iff.1 hx).1
    exact .inr ⟨hp, .inl ⟨_, x.epoch, hs, rfl, he⟩⟩
  · exact .inr ⟨hp, .inr hm⟩

/-- What is kept after a call was kept before, or is the reply that was just fetched. -/
theorem mem_cache (h : Executed s q r t) {e : String × CacheEntry}
    (he : e ∈ t.client.cache.entries) :
    e ∈ s.client.cache.entries ∨
    ∃ reply epoch p, e = (q.key, ⟨reply.output, reply.attachments, epoch⟩) ∧
      q.streams = [] ∧
      t.world.posted = s.world.posted ++ [p] ∧ Fetched s q p (.ok reply) := by
  cases h with
  | kept hs ht hl =>
    obtain ⟨rfl, -⟩ := Cache.lookup_eq_some hl
    exact .inl he
  | plain _ h => exact .inl (h.cache ▸ he)
  | failed _ _ hl h =>
    rw [h.cache] at he
    exact .inl (Cache.mem_lookup (by rw [hl]; exact he))
  | @fetched ttl cache reply u hs _ hl h =>
    rcases Cache.mem_store he with he | he
    · obtain ⟨p, hp, hf⟩ := h.fetched_of_missed hs
      exact .inr ⟨reply, _, p, he, hs, hp, hf⟩
    · rw [h.cache] at he
      exact .inl (Cache.mem_lookup (by rw [hl]; exact he))

end Executed

end RemoteCall
