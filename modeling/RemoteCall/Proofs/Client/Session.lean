import RemoteCall.Proofs.Client.Operation

/-!
The session over a run. Main statement: after every operation it is the one that was set last, by
restoring, logging in or logging out; what is posted tells the session from before the operation,
but for logging in, which tells none.
-/

namespace RemoteCall

namespace Event

variable {e : Event}

/-- The session that an operation sets: the restored one, that of the credentials which logging in
returns, and none where logging in fails or after logging out. -/
def settles? (e : Event) : Option Session :=
  match e.operation, e.result with
  | .restore m, _ => some (.authenticated m)
  | .login _, .ok (.credentials c) => some (.authenticated ⟨c.token, none⟩)
  | .login _, _ => some .anonymous
  | .logout _, _ => some .anonymous
  | _, _ => none

/-- The session that is told in what an operation posts. -/
def told (e : Event) : Option Meta :=
  match e.operation with
  | .login _ => none
  | _ => e.before.client.session.meta?

theorem told_eq (e : Event) : e.called.client.session.meta? = e.told := by
  obtain ⟨o, s⟩ := e
  cases o <;> rfl

theorem session_after (e : Event) :
    e.after.client.session = e.settles?.getD e.before.client.session := by
  cases hq : e.operation.call? with
  | none =>
    obtain ⟨-, -, hs⟩ := frame_of_call?_eq_none hq e.before
    obtain ⟨o, s⟩ := e
    cases o with
    | restore m => rfl
    | clearCache | getCache | setCache | configure => exact hs nofun
    | _ => cases hq
  | some q =>
    have hf := (executed_execute e.called q).frame.session
    have ha : e.after.client.session = e.operation.leaving (e.reply q) e.called.client.session := by
      rw [after_eq hq, ← hf]
      rfl
    have hr := e.result_eq hq
    rw [ha]
    generalize e.reply q = r at hr
    obtain ⟨o, s⟩ := e
    cases o with
    | login l =>
      rw [settles?, hr]
      simp only [Operation.leaving, Operation.conclude]
      cases r.bind fun r => Client.credentials r.output <;> rfl
    | logout silent => rfl
    | execute | call | fortune | time | stats | logo => rfl
    | _ => cases hq

end Event

/-- The session set by the most recent operation that sets one; at first there is none. -/
def settled (es : List Event) : Session := (es.reverse.findSome? Event.settles?).getD .anonymous

theorem settled_concat (es : List Event) (e : Event) :
    settled (es ++ [e]) = e.settles?.getD (settled es) := by
  rw [settled, List.reverse_append, List.reverse_singleton, List.singleton_append,
    List.findSome?_cons]
  cases e.settles? <;> rfl

/-- A post tells a session: its form says an envelope with it, and whoever reads the form finds
it. -/
structure Post.Tells (p : Post) (e : Envelope) (streams : List Stream) : Prop where
  sends : Sends p.form e streams
  said : ∀ e' files, p.form.said? = some (e', files) → e'.session = e.session
  legible : e.Legible → ∃ files, p.form.said? = some (e, files)

theorem Fetched.tells {s : State} {q : Call} {p : Post} {r : Except Failure Reply}
    (h : Fetched s q p r) : p.Tells (q.envelope s.client.session.meta?) q.streams where
  sends := h.sends
  said e' files hs := by
    rw [h.sends.said?_eq, Envelope.reread] at hs
    split at hs
    · cases hs
      rfl
    · cases hs
  legible hl := by
    rw [h.sends.said?_eq, Envelope.reread_of_legible hl]
    exact ⟨_, rfl⟩

theorem Event.logout_fails_iff {e : Event} {silent : Bool} (h : e.operation = .logout silent) :
    (∃ f, e.result = .error f) ↔ silent = false ∧
      ∃ f, ((Client.execute "auth.logout" .null []).exec e.before).1 = .error f ∧
        f.isUnauthorized = false := by
  have hr := e.result_eq (q := ⟨"auth.logout", .null, []⟩) (by rw [h]; rfl)
  have hc : e.reply ⟨"auth.logout", .null, []⟩ =
      ((Client.execute "auth.logout" .null []).exec e.before).1 := by
    rw [Event.reply, Event.called, h]
    rfl
  rw [hr, hc, h]
  cases ((Client.execute "auth.logout" .null []).exec e.before).1 with
  | ok r => simp [Operation.conclude]
  | error f =>
    simp only [Operation.conclude]
    cases silent <;> cases hu : f.isUnauthorized <;> simp [hu]

/-- After every operation of a run the session is the one that was set last. All that is posted
tells the session from before the operation, and none in logging in. Logging out fails, unless
silently, where its call fails and the session was not the reason. -/
theorem session_follows_run (config : Config) (world : World) (ops : List Operation)
    {before after : List Event} {e : Event}
    (h : trace ops ⟨.ofConfig config, world⟩ = before ++ e :: after) :
    e.before.client.session = settled before ∧
      e.after.client.session = settled (before ++ [e]) ∧
      (∃ posts, e.after.world.posted = e.before.world.posted ++ posts ∧
        ∀ p ∈ posts, ∃ q, e.operation.call? = some q ∧
          p.Tells (q.envelope e.told) q.streams) ∧
      ∀ silent, e.operation = .logout silent →
        ((∃ f, e.result = .error f) ↔ silent = false ∧
          ∃ f, ((Client.execute "auth.logout" .null []).exec e.before).1 = .error f ∧
            f.isUnauthorized = false) := by
  have hs : e.before.client.session = settled before :=
    (trace_invariant (A := fun _ => True) (P := fun es s => s.client.session = settled es)
      (fun es e _ he => by rw [settled_concat, e.session_after, he]) (fun _ _ => trivial) rfl h).2
  refine ⟨hs, ?_, ?_, fun silent ho => Event.logout_fails_iff ho⟩
  · rw [settled_concat, e.session_after, hs]
  · obtain ⟨posts, hp, hf⟩ := e.exists_posts
    refine ⟨posts, hp, fun p hm => ?_⟩
    obtain ⟨q, hq, hf⟩ := hf p hm
    exact ⟨q, hq, e.told_eq ▸ hf.tells⟩

/-- A client in a world that lets everyone in: every answer is the output of a token. -/
def admitting : State where
  client := .ofConfig .default
  world := .answering (.ok ⟨200, some "multipart/x; boundary=b",
    [45, 45, 98, 13, 10, 13, 10, 123, 34, 111, 117, 116, 112, 117, 116, 34, 58, 123, 34, 116, 111,
      107, 101, 110, 34, 58, 34, 107, 34, 125, 125, 13, 10, 45, 45, 98, 45, 45]⟩)

def admission : Event := ⟨.login ⟨"u", "p"⟩, admitting⟩

def departure : Event := ⟨.logout false, admission.after⟩

theorem session_follows_run_admission :
    trace [.login ⟨"u", "p"⟩, .logout false] admitting = [admission] ++ departure :: [] ∧
      departure.before.client.session = .authenticated ⟨"k", none⟩ ∧
      departure.after.client.session = .anonymous ∧
      (∃ posts, departure.after.world.posted = departure.before.world.posted ++ posts ∧
        ∀ p ∈ posts, p.Tells ⟨"auth.logout", .null, some ⟨"k", none⟩⟩ []) ∧
      ¬ ∃ f, departure.result = .error f := by
  have ht :
      trace [.login ⟨"u", "p"⟩, .logout false] admitting = [admission] ++ departure :: [] := rfl
  have hs : settled [admission] = .authenticated ⟨"k", none⟩ := by with_unfolding_all rfl
  obtain ⟨hb, ha, ⟨posts, hp, hm⟩, hl⟩ := session_follows_run .default _ _ ht
  rw [hs] at hb
  refine ⟨ht, hb, ha, ⟨posts, hp, fun p hpm => ?_⟩, ?_⟩
  · obtain ⟨q, hq, hpt⟩ := hm p hpm
    cases hq
    have hk : departure.told = some ⟨"k", none⟩ := congrArg Session.meta? hb
    rwa [hk] at hpt
  · rw [hl false rfl]
    rintro ⟨-, f, hf, -⟩
    have hok : ((Client.execute "auth.logout" .null []).exec departure.before).1 =
        .ok ⟨.object [("token", .string "k")], []⟩ := by with_unfolding_all rfl
    cases hok.symm.trans hf

end RemoteCall
