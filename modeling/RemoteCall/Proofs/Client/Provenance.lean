import RemoteCall.Proofs.Client.Session

/-!
Where kept replies come from. Main statement: a reply that is not fetched was fetched earlier in the
run, for the same function and input. What tells replies apart is no more than that, so the address
and the session that it was fetched with may be others than those of now.
-/

namespace RemoteCall

/-- An operation posted a call, to the address and with the session that it found, and the network
answered with a reply. -/
structure Event.Obtained (e : Event) (q : Call) (p : Post) (r : Reply) : Prop where
  call : e.operation.call? = some q
  posted : e.after.world.posted = e.before.world.posted ++ [p]
  url : p.url = e.before.client.config.apiUrl
  tells : p.Tells (q.envelope e.told) q.streams
  answer : Reply.receive (e.before.world.network e.after.world.posted) = .ok r

theorem Event.obtained {e : Event} {q : Call} {p : Post} {r : Reply}
    (hq : e.operation.call? = some q)
    (hp : e.after.world.posted = e.before.world.posted ++ [p])
    (hf : Fetched e.called q p (.ok r)) : e.Obtained q p r where
  call := hq
  posted := hp
  url := hf.url
  tells := e.told_eq ▸ hf.tells
  answer := by
    rw [hp]
    exact hf.reply.symm

/-- Some operations obtained whatever is kept under the key of a call. -/
def Sourced (es : List Event) (c : Cache) : Prop :=
  ∀ key entry, (key, entry) ∈ c.entries → ∃ e ∈ es, ∃ q p,
    e.Obtained q p ⟨entry.output, entry.attachments⟩ ∧ q.streams = [] ∧ q.key = key

theorem sourced_after {es : List Event} {e : Event} (hc : ∀ text, e.operation ≠ .setCache text)
    (h : Sourced es e.before.client.cache) : Sourced (es ++ [e]) e.after.client.cache := by
  intro key entry hm
  have hkept (hm : (key, entry) ∈ e.before.client.cache.entries) : ∃ e' ∈ es ++ [e], ∃ q p,
      e'.Obtained q p ⟨entry.output, entry.attachments⟩ ∧ q.streams = [] ∧ q.key = key := by
    obtain ⟨e', he, hs⟩ := h key entry hm
    exact ⟨e', List.mem_append_left [e] he, hs⟩
  cases hq : e.operation.call? with
  | none => exact hkept (mem_cache_of_call?_eq_none hq e.before hc hm)
  | some q =>
    have hx := executed_execute e.called q
    rw [e.after_eq hq] at hm
    rcases hx.mem_cache hm with hm | ⟨reply, epoch, p, he, hs, hp, hf⟩
    · exact hkept hm
    · cases he
      refine ⟨e, List.mem_append_right es List.mem_cons_self, q, p, ?_, hs, rfl⟩
      refine Event.obtained hq ?_ hf
      rw [e.after_eq hq]
      exact hp

/-- Unless replies are put in from outside, a reply of a call that is not posted was obtained
earlier in the run by posting a call of the same function with the same input, and neither had
files. -/
theorem unposted_reply_was_obtained (config : Config) (world : World) {ops : List Operation}
    (hops : ∀ o ∈ ops, ∀ text, o ≠ .setCache text) {before after : List Event} {e : Event}
    (h : trace ops ⟨.ofConfig config, world⟩ = before ++ e :: after) {q : Call}
    (hq : e.operation.call? = some q) {r : Reply} (hr : e.reply q = .ok r)
    (hp : e.after.world.posted = e.before.world.posted) :
    q.streams = [] ∧ ∃ e₀ ∈ before, ∃ p, e₀.Obtained q p r := by
  have hs : Sourced before e.before.client.cache :=
    (trace_invariant (P := fun es s => Sourced es s.client.cache)
      (fun es e hc hs => sourced_after hc hs) hops (by rintro _ _ ⟨⟩) h).2
  rcases Event.posts_cases hq with
    ⟨p, hp', -⟩ | ⟨-, ⟨reply, epoch, hn, hr', hm⟩ | ⟨m, -, hr'⟩⟩
  · rw [hp, List.self_eq_append_right] at hp'
    cases hp'
  · cases hr'.symm.trans hr
    obtain ⟨e₀, he, q₀, p, ho, hn₀, hk⟩ := hs _ _ hm
    exact ⟨hn, e₀, he, p, Call.key_inj hk hn₀ hn ▸ ho⟩
  · cases hr'.symm.trans hr

/-- A client that keeps the replies of one function, and a network that answers with no output. -/
def keeper : State where
  client := .ofConfig (Config.default.withTtl "f" 3600)
  world := .answering (.ok ⟨200, some "multipart/x; boundary=b",
    [45, 45, 98, 13, 10, 13, 10, 123, 125, 13, 10, 45, 45, 98, 45, 45]⟩)

def question : Call := ⟨"f", .null, []⟩

def arrival : Event := ⟨.restore ⟨"a", none⟩, keeper⟩

def inquiry : Event := ⟨.execute question, arrival.after⟩

/-- Somebody else takes over after the inquiry. -/
def handover : Event := ⟨.restore ⟨"b", none⟩, inquiry.after⟩

/-- Calls go to another address after the inquiry. -/
def removal : Event :=
  ⟨.configure ((Config.default.withTtl "f" 3600).withUrl "http://b"), inquiry.after⟩

theorem unposted_reply_was_obtained_by_inquiry :
    trace [.restore ⟨"a", none⟩, .execute question, .execute question] keeper =
        [arrival, inquiry] ++ ⟨.execute question, inquiry.after⟩ :: [] ∧
      ∃ e₀ ∈ [arrival, inquiry], ∃ p, e₀.Obtained question p ⟨.null, []⟩ := by
  have ht : trace [.restore ⟨"a", none⟩, .execute question, .execute question] keeper =
      [arrival, inquiry] ++ ⟨.execute question, inquiry.after⟩ :: [] := rfl
  have hops : ∀ o ∈ [Operation.restore ⟨"a", none⟩, .execute question, .execute question],
      ∀ text, o ≠ .setCache text := by
    simp
  have hr : Event.reply ⟨.execute question, inquiry.after⟩ question = .ok ⟨.null, []⟩ := by
    with_unfolding_all rfl
  have hp : (Event.after ⟨.execute question, inquiry.after⟩).world.posted =
      inquiry.after.world.posted := by
    with_unfolding_all rfl
  exact ⟨ht, (unposted_reply_was_obtained _ _ hops ht rfl hr hp).2⟩

/-- What was obtained in one session is told in another, and what came from one address is told when
calls go to another: the posts that obtained it are not the ones that would be made now. -/
theorem kept_reply_crosses_sessions :
    (trace [.restore ⟨"a", none⟩, .execute question, .restore ⟨"b", none⟩,
        .execute question] keeper =
        [arrival, inquiry, handover] ++ ⟨.execute question, handover.after⟩ :: [] ∧
      Event.reply ⟨.execute question, handover.after⟩ question = .ok ⟨.null, []⟩ ∧
      (Event.after ⟨.execute question, handover.after⟩).world.posted =
        handover.after.world.posted ∧
      ∀ e₀ ∈ [arrival, inquiry, handover], ∀ p r, e₀.Obtained question p r →
        e₀.told ≠ Event.told ⟨.execute question, handover.after⟩) ∧
    trace [.restore ⟨"a", none⟩, .execute question,
        .configure ((Config.default.withTtl "f" 3600).withUrl "http://b"),
        .execute question] keeper =
        [arrival, inquiry, removal] ++ ⟨.execute question, removal.after⟩ :: [] ∧
      Event.reply ⟨.execute question, removal.after⟩ question = .ok ⟨.null, []⟩ ∧
      (Event.after ⟨.execute question, removal.after⟩).world.posted =
        removal.after.world.posted ∧
      ∀ e₀ ∈ [arrival, inquiry, removal], ∀ p r, e₀.Obtained question p r →
        p.url ≠ removal.after.client.config.apiUrl := by
  refine ⟨⟨rfl, by with_unfolding_all rfl, by with_unfolding_all rfl, ?_⟩,
    rfl, by with_unfolding_all rfl, by with_unfolding_all rfl, ?_⟩
  · intro e₀ he p r ho
    have hcall := ho.call
    simp only [List.mem_cons, List.not_mem_nil, or_false] at he
    rcases he with rfl | rfl | rfl
    · cases hcall
    · change some (Meta.mk "a" none) ≠ some ⟨"b", none⟩
      decide
    · cases hcall
  · intro e₀ he p r ho
    have hcall := ho.call
    have hurl := ho.url
    simp only [List.mem_cons, List.not_mem_nil, or_false] at he
    rcases he with rfl | rfl | rfl
    · cases hcall
    · rw [hurl]
      change Config.defaultUrl ≠ "http://b"
      decide
    · cases hcall

end RemoteCall
