import RemoteCall.Proofs.Cache.Eviction
import RemoteCall.Proofs.Client.Confinement
import RemoteCall.Proofs.Client.Export

/-!
What eviction keeps and what looking up finds. Both go by the time at which an entry expires, but
eviction takes that time itself for a part of the entry's life, and looking up does not. Main
statement: they agree at every other time, and at that one an entry is kept, and exported, that no
call is answered from.
-/

namespace RemoteCall

/-! ### Exporting and answering -/

section

variable {func : String} {input : Json} {x : CacheEntry}

/-- A call without files is answered from what is kept, and not posted, as long as that is live. -/
theorem answered_iff {s : State} {ttl : UInt64} (ht : s.client.config.ttl? func = some ttl)
    (hx : s.client.cache.entries.get? (Cache.key func input) = some x) :
    (Event.result ⟨.execute ⟨func, input, []⟩, s⟩ =
        .ok (.reply ⟨x.output, x.attachments⟩) ∧
        (Event.after ⟨.execute ⟨func, input, []⟩, s⟩).world.posted = s.world.posted) ↔
      s.now.val < (x.expiresAt ttl).val := by
  have hr := Event.result_eq (e := ⟨.execute ⟨func, input, []⟩, s⟩) rfl
  have ha := Event.after_eq (e := ⟨.execute ⟨func, input, []⟩, s⟩) rfl
  have he : Executed s ⟨func, input, []⟩ _ _ := executed_execute s ⟨func, input, []⟩
  rw [hr, ha]
  constructor
  · rintro ⟨-, hp⟩
    rcases he.posts with ⟨p, hp', -⟩ | ⟨-, ⟨ttl', y, -, ht', hy, -⟩ | ⟨m, hm, -⟩⟩
    · have := hp'.symm.trans hp
      simp at this
    · cases ht.symm.trans ht'
      obtain ⟨hy, hn⟩ := Cache.live?_eq_some_iff.1 hy
      cases hx.symm.trans hy
      exact hn
    · cases hm
  · intro hn
    obtain ⟨hr, hp⟩ := he.answered_of_live rfl ht (Cache.live?_eq_some_iff.2 ⟨hx, hn⟩)
    exact ⟨congrArg (Except.map Yield.reply) hr, hp⟩

variable {config : Config} {w : World} {ops : List Operation} {past rest : List Event} {e : Event}

/-- An entry of a function with a time to live, kept by a client in a run. Eviction keeps it up to
the time at which it expires, that time included, and looking up finds it until then, that time
excluded; so eviction keeps what looking up finds at every time but that one. The same difference
lies between what is exported and what calls are answered from. -/
theorem kept_iff_found_iff_not_expiring
    (h : trace ops ⟨.ofConfig config, w⟩ = past ++ e :: rest) (hd : input.depth ≤ 126)
    (hx : e.before.client.cache.entries.get? (Cache.key func input) = some x) :
    (∀ ttls ttl (now : Instant), Entries.get? ttls func = some ttl →
      let c := e.before.client.cache
      let kept := (c.removeExpired ttls now).entries.get? (Cache.key func input) = some x
      let found := (c.lookup (Cache.key func input) ttl now).1 = some (x.output, x.attachments)
      (kept ↔ now.val ≤ (x.expiresAt ttl).val) ∧
        (found ↔ now.val < (x.expiresAt ttl).val) ∧
        ((kept ↔ found) ↔ now ≠ x.expiresAt ttl)) ∧
    ∀ ttl, e.before.client.config.ttl? func = some ttl →
      ∃ exported, Event.result ⟨.getCache, e.before⟩ = .ok (.cache exported) ∧
        (exported.entries.get? (Cache.key func input) = some x ↔
          e.before.now.val ≤ (x.expiresAt ttl).val) ∧
        ((Event.result ⟨.execute ⟨func, input, []⟩, e.before⟩ =
              .ok (.reply ⟨x.output, x.attachments⟩) ∧
            (Event.after ⟨.execute ⟨func, input, []⟩, e.before⟩).world.posted =
              e.before.world.posted) ↔
          e.before.now.val < (x.expiresAt ttl).val) := by
  have ho := (ordered_of_trace h).entries
  refine ⟨fun ttls ttl now hf => ?_, fun ttl ht => ?_⟩
  · have hk := Cache.get?_removeExpired_iff ho hf hd hx now
    have hl := Cache.lookup_fst_iff hx ttl now
    refine ⟨hk, hl, ?_⟩
    rw [hk, hl, ne_eq, Subtype.ext_iff]
    omega
  · have hf := (Config.ttl?_eq_some_iff.1 ht).2
    exact ⟨_, rfl, Cache.get?_removeExpired_iff ho hf hd hx e.before.now, answered_iff ht hx⟩

end

theorem get?_lending :
    lending.after.client.cache.entries.get? (Cache.key "f" .null) =
      some ⟨.null, [], .clamp 0⟩ := by
  rw [cache_lending]
  exact if_pos rfl

theorem kept_iff_found_iff_not_expiring_lent :
    trace [.execute question, .getCache] keeper =
        [lending] ++ ⟨.getCache, lending.after⟩ :: [] ∧
      Json.null.depth ≤ 126 ∧
      lending.after.client.cache.entries.get? (Cache.key "f" .null) =
        some ⟨.null, [], .clamp 0⟩ ∧
      Entries.get? [("f", (3600 : UInt64))] "f" = some 3600 ∧
      (lending.after.client.cache.removeExpired [("f", 3600)] (.clamp 3599999)).entries.get?
        (Cache.key "f" .null) = some ⟨.null, [], .clamp 0⟩ ∧
      (lending.after.client.cache.lookup (Cache.key "f" .null) 3600 (.clamp 3599999)).1 =
        some (.null, []) := by
  have ht : trace [.execute question, .getCache] keeper =
      [lending] ++ ⟨.getCache, lending.after⟩ :: [] := rfl
  obtain ⟨hk, hl, -⟩ := (kept_iff_found_iff_not_expiring ht (Nat.zero_le _) get?_lending).1
    [("f", 3600)] 3600 (.clamp 3599999) rfl
  exact ⟨ht, Nat.zero_le _, get?_lending, rfl, hk.2 (by decide), hl.2 (by decide)⟩

/-- At the very time of expiry the entry stays, and is not found. -/
theorem kept_but_not_found_when_expiring :
    trace [.execute question, .getCache] keeper =
        [lending] ++ ⟨.getCache, lending.after⟩ :: [] ∧
      (lending.after.client.cache.removeExpired [("f", 3600)] (.clamp 3600000)).entries.get?
        (Cache.key "f" .null) = some ⟨.null, [], .clamp 0⟩ ∧
      (lending.after.client.cache.lookup (Cache.key "f" .null) 3600 (.clamp 3600000)).1 =
        none := by
  have ho : Entries.Ordered lending.after.client.cache.entries := by
    rw [cache_lending]
    exact List.pairwise_singleton _ _
  refine ⟨rfl, ?_, ?_⟩
  · exact (Cache.get?_removeExpired_iff ho rfl (Nat.zero_le _) get?_lending _).2 (by decide)
  · rw [Cache.lookup_fst, Cache.live?, get?_lending]
    rfl

end RemoteCall
