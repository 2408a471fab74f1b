import RemoteCall.Proofs.Cache.Expiry
import RemoteCall.Proofs.Cache.Text
import RemoteCall.Proofs.Client.Provenance
import RemoteCall.Proofs.Reply.Contract

/-!
What is kept by one client given to another. Main statement: a client that takes the exported text
finds from then on what the client that exported it finds, and nothing else; no eviction on the way
is seen.
-/

namespace RemoteCall

/-! ### Caches of clients stand in order -/

section

variable {s t : State} {q : Call} {r : Except Failure Reply}

theorem Posted.ordered_output {reply : Reply} (h : Posted s q (.ok reply) t) :
    reply.output.Ordered := by
  rcases h.fetched with ⟨_, -, hr, -⟩ | ⟨p, -, hf⟩
  · cases hr
  · have hr := hf.reply
    cases hn : s.world.network (s.world.posted ++ [p]) with
    | error message =>
      rw [hn] at hr
      cases hr
    | ok response =>
      rw [hn] at hr
      exact Reply.ordered_output hr.symm

theorem Executed.ordered_output {reply : Reply} (h : Executed s q (.ok reply) t)
    (ho : s.client.cache.Ordered) : reply.output.Ordered := by
  cases h with
  | kept _ _ hl =>
    obtain ⟨-, epoch, he⟩ := Cache.lookup_eq_some hl
    exact ho.outputs _ he
  | plain _ h => exact h.ordered_output
  | fetched _ _ _ h => exact h.ordered_output

theorem Executed.ordered (h : Executed s q r t) (ho : s.client.cache.Ordered) :
    t.client.cache.Ordered := by
  have hl (ttl : UInt64) : (s.client.cache.lookup q.key ttl s.now).2.Ordered := ho.lookup _ _ _
  cases h with
  | @kept ttl r cache hs ht hk =>
    have := hl ttl
    rwa [hk] at this
  | plain _ h => exact h.cache ▸ ho
  | @failed ttl cache f t hs ht hk h =>
    have := hl ttl
    rw [hk] at this
    exact h.cache ▸ this
  | @fetched ttl cache r t hs ht hk h =>
    have := hl ttl
    rw [hk] at this
    exact (h.cache ▸ this : t.client.cache.Ordered).store _ h.ordered_output _ _

end

/-- A text that is no cache is refused, and nothing else happens. -/
theorem exec_setCache (text : String) (s : State) :
    (Operation.setCache text).perform.exec s =
      match Cache.parse text.toList with
      | .ok c =>
        (.ok .nothing, s.ticked.keeping (c.removeExpired s.client.config.ttls s.now))
      | .error f => (.error (.json f), s) := by
  simp only [Operation.perform, Client.setCache, Calling.exec_bind, Calling.exec_ofExcept]
  cases Cache.parse text.toList <;> rfl

theorem Event.ordered {e : Event} (ho : e.before.client.cache.Ordered) :
    e.after.client.cache.Ordered := by
  cases hq : e.operation.call? with
  | some q =>
    rw [e.after_eq hq]
    exact (executed_execute e.called q).ordered ho
  | none =>
    obtain ⟨o, s⟩ := e
    cases o with
    | clearCache => exact .empty
    | getCache => exact ho.removeExpired _ _
    | restore | configure => exact ho
    | setCache text =>
      rw [after, exec_setCache]
      cases hp : Cache.parse text.toList with
      | error f => exact ho
      | ok c => exact (Cache.ordered_of_parse hp).removeExpired _ _
    | _ => cases hq

theorem ordered_of_trace {config : Config} {w : World} {ops : List Operation}
    {past rest : List Event} {e : Event}
    (h : trace ops ⟨.ofConfig config, w⟩ = past ++ e :: rest) : e.before.client.cache.Ordered :=
  (trace_invariant (A := fun _ => True) (P := fun _ s => s.client.cache.Ordered)
    (fun _ _ _ => Event.ordered) (fun _ _ => trivial) .empty h).2

/-! ### Seeding -/

section

variable {config : Config} {w : World} {ops : List Operation} {past rest : List Event} {e : Event}

/-- A client in a run exports what it keeps. Whatever another client kept before that heeds the same
times to live, once it has taken the exported text it finds the same entries as the exporting
client, both before and after the export, and like that one nothing else. A text that is no cache is
refused and changes nothing. -/
theorem export_seeds_import (h : trace ops ⟨.ofConfig config, w⟩ = past ++ e :: rest)
    (he : e.operation = .getCache)
    (hw : ∀ x ∈ e.before.client.cache.entries, x.2.output.Whole ∧ x.2.output.depth ≤ 125)
    {s : State} (hs : s.client.config.ttls = e.before.client.config.ttls)
    (hn : e.before.now.val ≤ s.now.val) :
    (∃ exported, e.result = .ok (.cache exported) ∧ exported.Writes exported.text ∧
      ∀ text, exported.Writes text →
        Event.result ⟨.setCache text, s⟩ = .ok .nothing ∧
        ∀ c ∈ [e.before.client.cache, e.after.client.cache],
          Cache.Alike s.client.config.ttls s.now
            (Event.after ⟨.setCache text, s⟩).client.cache c) ∧
    ∀ text fault, Cache.parse text.toList = .error fault →
      Event.result ⟨.setCache text, s⟩ = .error (.json fault) ∧
        Event.after ⟨.setCache text, s⟩ = s := by
  have ho := ordered_of_trace h
  obtain ⟨o, a⟩ := e
  cases he
  refine ⟨⟨a.client.cache.removeExpired a.client.config.ttls a.now, rfl, ?_⟩, ?_⟩
  · have hx := ho.removeExpired a.client.config.ttls a.now
    refine ⟨Cache.writes_text hx.entries, fun text ht => ?_⟩
    have hp := Cache.parse_of_writes hx (fun x hm => (hw x (Cache.mem_removeExpired hm)).1)
      (fun x hm => (hw x (Cache.mem_removeExpired hm)).2) ht
    have hexec := exec_setCache text s
    rw [hp] at hexec
    -- the importing client evicts once more, which no later lookup can tell
    have hback : Cache.Alike s.client.config.ttls s.now
        (Event.after ⟨.setCache text, s⟩).client.cache
        (a.client.cache.removeExpired a.client.config.ttls a.now) := by
      rw [Event.after, hexec]
      exact Cache.alike_removeExpired hx.entries _ (Int.le_refl _)
    refine ⟨by rw [Event.result, hexec], ?_⟩
    simp only [List.forall_mem_cons]
    refine ⟨hback.trans ?_, hback, List.forall_mem_nil _⟩
    rw [hs]
    exact Cache.alike_removeExpired ho.entries _ hn
  · intro text fault hf
    have hexec := exec_setCache text s
    rw [hf] at hexec
    exact ⟨by rw [Event.result, hexec], by rw [Event.after, hexec]⟩

end

def lending : Event := ⟨.execute question, keeper⟩

/-- A client without a network that keeps something else. -/
def borrower : State where
  client := { Client.ofConfig (Config.default.withTtl "f" 3600) with
    cache := ⟨[("k", ⟨.bool true, [], .clamp 5⟩)]⟩ }
  world := .answering (.error "")

theorem cache_lending :
    lending.after.client.cache = ⟨[(Cache.key "f" .null, ⟨.null, [], .clamp 0⟩)]⟩ := by
  with_unfolding_all rfl

theorem export_seeds_import_lent :
    trace [.execute question, .getCache] keeper =
        [lending] ++ ⟨.getCache, lending.after⟩ :: [] ∧
      (∀ x ∈ lending.after.client.cache.entries, x.2.output.Whole ∧
        x.2.output.depth ≤ 125) ∧
      borrower.client.config.ttls = lending.after.client.config.ttls ∧
      lending.after.now.val ≤ borrower.now.val ∧
      ∃ exported, Event.result ⟨.getCache, lending.after⟩ = .ok (.cache exported) ∧
        ((Event.after ⟨.setCache exported.text, borrower⟩).client.cache.lookup
          (Cache.key "f" .null) 3600 (.clamp 1)).1 = some (.null, []) := by
  have ht : trace [.execute question, .getCache] keeper =
      [lending] ++ ⟨.getCache, lending.after⟩ :: [] := rfl
  have hw : ∀ x ∈ lending.after.client.cache.entries,
      x.2.output.Whole ∧ x.2.output.depth ≤ 125 := by
    rw [cache_lending]
    exact List.forall_mem_singleton.2 ⟨.null, Nat.zero_le _⟩
  have hs : borrower.client.config.ttls = lending.after.client.config.ttls := by
    with_unfolding_all rfl
  have hn : lending.after.now.val ≤ borrower.now.val := by with_unfolding_all decide
  obtain ⟨exported, hr, hx, hall⟩ := (export_seeds_import ht rfl hw hs hn).1
  obtain ⟨-, hseed⟩ := hall _ hx
  have hl := (hseed _ List.mem_cons_self "f" 3600 (by with_unfolding_all rfl) .null (.clamp 1)
    (by with_unfolding_all decide)).2
  refine ⟨ht, hw, hs, hn, exported, hr, hl.trans ?_⟩
  rw [cache_lending]
  with_unfolding_all rfl

end RemoteCall
