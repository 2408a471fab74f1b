import RemoteCall.Proofs.Client.Operation

/-!
What a call changes. Main statement: nothing is changed of what is kept but under the call's own
key, and there a call that fails drops no more than what has expired. At most one request is posted,
and none only if a live entry answers or a stream cannot be read.
-/

namespace RemoteCall

namespace Entries

theorem get?_drop_of_ne {α : Type} (es : Entries α) {key other : String} (h : key ≠ other) :
    (es.drop key).get? other = es.get? other := by
  induction es with
  | nil => rfl
  | cons e es ih =>
    obtain ⟨k, v⟩ := e
    rw [drop, List.filter_cons]
    by_cases hk : k = key
    · rw [if_neg (by simpa using hk), get?, if_neg (fun ho => h (hk.symm.trans ho))]
      exact ih
    · rw [if_pos (by simpa using hk), get?, get?]
      split
      · rfl
      · exact ih

end Entries

namespace Config

variable {c : Config} {func : String}

theorem ttl?_eq_none_iff :
    c.ttl? func = none ↔ c.ttls.get? func = none ∨ c.useCache = false := by
  rw [ttl?]
  cases c.useCache <;> simp

theorem ttl?_eq_some_iff {ttl : UInt64} :
    c.ttl? func = some ttl ↔ c.useCache = true ∧ c.ttls.get? func = some ttl := by
  rw [ttl?]
  cases c.useCache <;> simp

end Config

namespace Cache

theorem Looked.get?_of_ne {c d : Cache} {key other : String} {ttl : UInt64} {now : Instant}
    {hit : Option (Json × List Attachment)} (h : Looked c key ttl now (hit, d))
    (hk : key ≠ other) : d.entries.get? other = c.entries.get? other := by
  cases h with
  | live | absent => rfl
  | expired => exact Entries.get?_drop_of_ne _ hk

end Cache

/-! ### One call -/

namespace Executed

variable {s t : State} {q : Call} {r : Except Failure Reply}

/-- Nothing is changed but under the key of the call. -/
theorem get?_of_ne (h : Executed s q r t) {key : String} (hk : q.key ≠ key) :
    t.client.cache.entries.get? key = s.client.cache.entries.get? key := by
  have hl (ttl : UInt64) := Cache.looked_lookup s.client.cache q.key ttl s.now
  cases h with
  | @kept ttl r cache hs ht he => exact Cache.Looked.get?_of_ne (he ▸ hl ttl) hk
  | plain _ h => rw [h.cache]
  | @failed ttl cache f t hs ht he h =>
    rw [h.cache]
    exact Cache.Looked.get?_of_ne (he ▸ hl ttl) hk
  | @fetched ttl cache r t hs ht he h =>
    refine (Entries.get?_put_of_ne _ _ hk).trans ?_
    rw [h.cache]
    exact Cache.Looked.get?_of_ne (he ▸ hl ttl) hk

theorem cache_of_unkept (h : Executed s q r t)
    (hn : q.streams ≠ [] ∨ s.client.config.ttl? q.func = none) :
    t.client.cache = s.client.cache := by
  cases h with
  | plain _ h => exact h.cache
  | kept hs ht | failed hs ht | fetched hs ht => simp [hs, ht] at hn

/-- A call that fails drops the entry under its key if that has expired, and does nothing else to
what is kept. -/
theorem cache_of_error {f : Failure} (h : Executed s q (.error f) t) :
    t.client.cache = s.client.cache ∨
      ∃ ttl x, q.streams = [] ∧ s.client.config.ttl? q.func = some ttl ∧
        s.client.cache.entries.get? q.key = some x ∧ (x.expiresAt ttl).val ≤ s.now.val ∧
        t.client.cache = ⟨s.client.cache.entries.drop q.key⟩ := by
  cases h with
  | plain _ h => exact .inl h.cache
  | @failed ttl cache f t hs ht he h =>
    have hl := Cache.looked_lookup s.client.cache q.key ttl s.now
    rw [he] at hl
    rw [h.cache]
    cases hl with
    | absent => exact .inl rfl
    | expired _ hx hn => exact .inr ⟨ttl, _, hs, ht, hx, hn, rfl⟩

/-- A live entry answers. -/
theorem answered_of_live (h : Executed s q r t) (hs : q.streams = []) {ttl : UInt64}
    (ht : s.client.config.ttl? q.func = some ttl) {x : CacheEntry}
    (hx : s.client.cache.live? q.key ttl s.now = some x) :
    r = .ok ⟨x.output, x.attachments⟩ ∧ t.world.posted = s.world.posted := by
  have hl := Cache.looked_lookup s.client.cache q.key ttl s.now
  cases h with
  | @kept ttl r cache _ ht' he =>
    cases ht.symm.trans ht'
    obtain ⟨output, attachments⟩ := r
    rw [he] at hl
    cases hl with
    | live hx' =>
      cases hx.symm.trans hx'
      exact ⟨rfl, rfl⟩
  | plain hn => simp [hs, ht] at hn
  | failed _ ht' he | fetched _ ht' he =>
    cases ht.symm.trans ht'
    rw [he] at hl
    cases hl with
    | absent hn | expired hn => cases hx.symm.trans hn

end Executed

/-- Whatever comes of a call, the settings, the session and all that is kept under other keys than
its own stay as they were. If it fails, then what is kept changes only in that an entry under its
key is dropped that has expired; if it has files or replies of its function are not kept, then not
at all. At most one request is posted, and none exactly if a live entry answers the call or one of
its streams cannot be read. -/
theorem execute_is_confined (s : State) (q : Call) :
    let r := (q.execute.exec s).1
    let t := (q.execute.exec s).2
    t.client.session = s.client.session ∧ t.client.config = s.client.config ∧
    (∀ key, q.key ≠ key →
      t.client.cache.entries.get? key = s.client.cache.entries.get? key) ∧
    (∀ f, r = .error f → t.client.cache = s.client.cache ∨
      ∃ ttl x, q.streams = [] ∧ s.client.config.ttl? q.func = some ttl ∧
        s.client.cache.entries.get? q.key = some x ∧ (x.expiresAt ttl).val ≤ s.now.val ∧
        t.client.cache = ⟨s.client.cache.entries.drop q.key⟩) ∧
    (q.streams ≠ [] ∨ s.client.config.ttls.get? q.func = none ∨
        s.client.config.useCache = false →
      t.client.cache = s.client.cache) ∧
    (t.world.posted = s.world.posted ∨ ∃ p, t.world.posted = s.world.posted ++ [p]) ∧
    (t.world.posted = s.world.posted ↔
      (∃ ttl x, q.streams = [] ∧ s.client.config.ttl? q.func = some ttl ∧
        s.client.cache.live? q.key ttl s.now = some x ∧ r = .ok ⟨x.output, x.attachments⟩) ∨
      ∃ message, q.streams.findSome? Stream.fault = some message ∧
        r = .error (.io message)) := by
  intro r t
  have h : Executed s q r t := executed_execute s q
  refine ⟨h.frame.session, h.frame.config, fun key hk => h.get?_of_ne hk, ?_, ?_, ?_, ?_⟩
  · intro f hf
    exact (hf ▸ h).cache_of_error
  · intro hn
    exact h.cache_of_unkept (hn.imp_right Config.ttl?_eq_none_iff.2)
  · rcases h.posts with ⟨p, hp, -⟩ | ⟨hp, -⟩
    · exact .inr ⟨p, hp⟩
    · exact .inl hp
  · rcases h.posts with ⟨p, hp, hf⟩ | ⟨hp, hc⟩
    · rw [hp, eq_comm, List.self_eq_append_right]
      refine iff_of_false (List.cons_ne_nil p []) ?_
      rintro (⟨ttl, x, hs, ht, hx, -⟩ | ⟨message, hm, -⟩)
      · rw [(h.answered_of_live hs ht hx).2, List.self_eq_append_right] at hp
        cases hp
      · cases hf.read.symm.trans hm
    · exact iff_of_true hp hc

/-- A client without a network that keeps two replies, none of which is live. -/
def outdated : State where
  client := { Client.ofConfig (Config.default.withTtl "f" 0) with
    cache :=
      ⟨[("k", ⟨.null, [], .clamp 0⟩), (Cache.key "f" .null, ⟨.null, [], .clamp 0⟩)]⟩ }
  world := .answering (.error "")

theorem execute_is_confined_outdated :
    ((Call.mk "f" .null []).execute.exec outdated).1 = .error (.transport "") ∧
      (∃ ttl, ∃ x : CacheEntry, outdated.client.config.ttl? "f" = some ttl ∧
        (x.expiresAt ttl).val ≤ outdated.now.val ∧
        ((Call.mk "f" .null []).execute.exec outdated).2.client.cache =
          ⟨outdated.client.cache.entries.drop (Cache.key "f" .null)⟩) ∧
      ((Call.mk "f" .null []).execute.exec outdated).2.client.cache.entries.get? "k" =
        outdated.client.cache.entries.get? "k" := by
  have hr : ((Call.mk "f" .null []).execute.exec outdated).1 = .error (.transport "") := by
    with_unfolding_all rfl
  have hd : ((Call.mk "f" .null []).execute.exec outdated).2.client.cache.size ≠
      outdated.client.cache.size := by
    with_unfolding_all decide
  obtain ⟨-, -, hk, he, -⟩ := execute_is_confined outdated ⟨"f", .null, []⟩
  refine ⟨hr, ?_, hk "k" (by with_unfolding_all decide)⟩
  rcases he _ hr with hs | ⟨ttl, x, -, ht, -, hx, hc⟩
  · exact absurd (congrArg Cache.size hs) hd
  · exact ⟨ttl, x, ht, hx, hc⟩

end RemoteCall
