import RemoteCall.Proofs.Client.Session
import RemoteCall.Proofs.Command.Call

/-!
A call between a login and a logout. Main statement: whoever was let in is logged out by the last
post, whatever comes of the call, and what comes of the logout makes no difference.
-/

namespace RemoteCall

open Job

/-- What comes of calling a function where nothing is kept, with what was posted before: a stream
cannot be read, or one post is made. -/
inductive Asked (network : List Post → Except String Response) (before : List Post) (v : Envelope)
    (streams : List Stream) : List Post → Except Failure Reply → Prop
  | unread {message : String} : streams.findSome? Stream.fault = some message →
    Asked network before v streams [] (.error (.io message))
  | posted {p : Post} : streams.findSome? Stream.fault = none → p.Tells v streams →
    Asked network before v streams [p] (Reply.receive (network (before ++ [p])))

theorem Executed.asked {s t : State} {q : Call} {r : Except Failure Reply} (h : Executed s q r t)
    (hc : s.client.cache = .empty) :
    ∃ posts, t.world.posted = s.world.posted ++ posts ∧
      Asked s.world.network s.world.posted (q.envelope s.client.session.meta?) q.streams posts
        r := by
  rcases h.posts with ⟨p, hp, hf⟩ | ⟨hp, ⟨ttl, x, -, -, hx, -⟩ | ⟨message, hm, rfl⟩⟩
  · exact ⟨[p], hp, hf.reply ▸ .posted hf.read hf.tells⟩
  · rw [hc] at hx
    cases (Cache.live?_eq_some_iff.1 hx).1
  · exact ⟨[], hp.trans (List.append_nil _).symm, .unread hm⟩

/-! ### Logging in and out -/

section

variable {s : State}

theorem exec_execute_of_unkept {q : Call} (h : s.client.config.ttl? q.func = none) :
    q.execute.exec s = q.post.exec s := by
  rw [Call.execute, Client.execute]
  simp only [Calling.exec_bind, Calling.exec_get, keeping_eq_none_iff.2 (.inr h)]
  rfl

/-- A call without streams that is never kept makes one post, and keeps nothing. -/
theorem exists_post_of_unkept {func : String} (input : Json)
    (h : s.client.config.ttl? func = none) :
    ∃ p t, (Client.execute func input []).exec s =
        (Reply.receive (s.world.network (s.world.posted ++ [p])), t) ∧
      p.Tells ⟨func, input, s.client.session.meta?⟩ [] ∧
      t.world.posted = s.world.posted ++ [p] ∧ t.client.config = s.client.config ∧
      t.client.cache = s.client.cache := by
  let q : Call := ⟨func, input, []⟩
  have hx : (Client.execute func input []).exec s = q.post.exec s :=
    exec_execute_of_unkept (q := q) h
  have hp := posted_post s q
  rcases hr : q.post.exec s with ⟨r, t⟩
  rw [hr] at hp
  rcases hp.fetched with ⟨message, hm, -⟩ | ⟨p, hs, hf⟩
  · cases hm
  · exact ⟨p, t, hx.trans (hr.trans (Prod.ext hf.reply rfl)), hf.tells, hs, hp.frame.config,
      hp.cache⟩

/-- What a login makes of the answer to the last of some posts. -/
def admitted (network : List Post → Except String Response) (posts : List Post) :
    Except Failure Credentials :=
  (Reply.receive (network posts)).bind fun r => Client.credentials r.output

theorem exists_post_of_login (l : Login) (h : s.client.config.ttl? "auth.login" = none) :
    ∃ p t, (Client.login l).exec s = (admitted s.world.network (s.world.posted ++ [p]), t) ∧
      p.Tells ⟨"auth.login", l.toJson, none⟩ [] ∧ t.world.posted = s.world.posted ++ [p] ∧
      t.client.config = s.client.config ∧ t.client.cache = s.client.cache := by
  obtain ⟨p, t, hx, hp, hw, hc, hk⟩ :=
    exists_post_of_unkept (s := s.withSession fun _ => .anonymous) l.toJson h
  exact ⟨p, _, exec_login hx, hp, hw, hc, hk⟩

theorem exists_post_of_logout (h : s.client.config.ttl? "auth.logout" = none) :
    ∃ p, p.Tells ⟨"auth.logout", .null, s.client.session.meta?⟩ [] ∧
      ((Client.logout true).exec s).2.world.posted = s.world.posted ++ [p] := by
  obtain ⟨p, t, hx, hp, hw, -⟩ := exists_post_of_unkept .null h
  rw [exec_logout_true, hx]
  exact ⟨p, hp, hw⟩

end

/-! ### Another network -/

section

variable {network : List Post → Except String Response}

/-- A state whose world has another network. -/
def State.over (s : State) (network : List Post → Except String Response) : State :=
  { s with world := s.world.over network }

theorem Calling.exec_over {α : Type} (p : Calling α) {s : State}
    (h : s.world.Agrees network (p.exec s).2.world.posted) :
    p.exec (s.over network) = ((p.exec s).1, (p.exec s).2.over network) := by
  have hr := Program.run_over (p.run s.client) h
  simp only [exec, State.over, hr]

theorem Job.exec_over {α : Type} (j : Job α) {w : World}
    (h : w.Agrees network (j.exec w).2.posted) :
    j.exec (w.over network) = ((j.exec w).1, (j.exec w).2.over network) :=
  Program.run_over (ExceptT.run j) h

theorem opened_over (w : World) (path : String) : (w.over network).opened path = w.opened path := by
  simp only [World.opened, World.answer, World.over]
  split <;> rfl

theorem run_load_over (w : World) :
    Config.load.run (w.over network) = ((Config.load.run w).1, w.over network) := by
  rw [Program.run_over _ fun posts hl hle => ?_, Program.idle_load]
  rw [Program.idle_load] at hle
  exact absurd hle (Nat.not_le_of_lt hl)

/-- What comes of a logout that is never kept makes no difference to what it leaves. -/
theorem exec_logout_over {s : State} (h : s.client.config.ttl? "auth.logout" = none) :
    ((Client.logout true).exec (s.over network)).2 =
      ((Client.logout true).exec s).2.over network := by
  let q : Call := ⟨"auth.logout", .null, []⟩
  have hx : ∀ s : State, s.client.config.ttl? "auth.logout" = none →
      ((Client.logout true).exec s).2 = (q.post.exec s).2.withSession fun _ => .anonymous :=
    fun s h => by
      rw [exec_logout_true, ← exec_execute_of_unkept (q := q) h]
      rfl
  rw [hx s h, hx (s.over network) h, exec_post, exec_post]
  simp only [State.over, World.over]
  cases buildRequest (s.world.stamps s.world.stamped) s.client.issued
    (q.envelope s.client.session.meta?) q.streams with
  | ok r => rfl
  | error f => rfl

end

/-! ### Between the two -/

section

variable {e : Errand} {l : Login} {input : Json} {streams : List Stream} {s t : State}
  {c : Credentials}

/-- Whoever was let in is logged out by the last post. -/
theorem exists_posts_of_admitted (input : Json) (streams : List Stream) (hl : e.login = some l)
    (hx : (Client.login l).exec s = (.ok c, t)) (hk : t.client.cache = .empty)
    (hout : t.client.config.ttl? "auth.logout" = none) :
    ∃ posts last,
      ((Job.attended e input streams).exec s).2.world.posted = t.world.posted ++ posts ++ [last] ∧
      Asked t.world.network t.world.posted
        ⟨e.func, input, some ⟨c.token, none⟩⟩ streams posts
        ((Job.attended e input streams).exec s).1 ∧
      last.Tells ⟨"auth.logout", .null, some ⟨c.token, none⟩⟩ [] := by
  have hu := executed_execute t ⟨e.func, input, streams⟩
  have hs := session_of_login hx
  have hm : t.client.session.meta? = some ⟨c.token, none⟩ := by rw [hs]; rfl
  obtain ⟨posts, hp, ha⟩ := hu.asked hk
  obtain ⟨last, ht, hw⟩ := exists_post_of_logout (hu.frame.config ▸ hout)
  rw [hu.frame.session, hm] at ht
  rw [Call.envelope, hm] at ha
  rw [exec_attended_of_admitted hl hx]
  exact ⟨posts, last, hw.trans (by rw [hp]), ha, ht⟩

/-- What comes of the last logout makes no difference. -/
theorem exec_attended_over {network : List Post → Except String Response} (hl : e.login = some l)
    (hx : (Client.login l).exec s = (.ok c, t))
    (hout : t.client.config.ttl? "auth.logout" = none)
    (hn : ∀ posts, posts ≠ ((Job.attended e input streams).exec s).2.world.posted →
      network posts = s.world.network posts) :
    (Job.attended e input streams).exec (s.over network) =
      (((Job.attended e input streams).exec s).1,
        ((Job.attended e input streams).exec s).2.over network) := by
  have hu := executed_execute t ⟨e.func, input, streams⟩
  rw [Call.execute] at hu
  rcases hr : (Client.execute e.func input streams).exec t with ⟨r, u⟩
  rw [hr] at hu
  obtain ⟨last, -, hw⟩ := exists_post_of_logout (hu.frame.config ▸ hout)
  rw [exec_attended_of_admitted hl hx, hr] at hn ⊢
  rw [hw] at hn
  have hlt : t.world.posted.length ≤ u.world.posted.length := by
    have hlt := Program.length_posted_run
      ((Client.execute e.func input streams).run t.client) t.world
    rwa [← congrArg (fun x => x.2.world) hr]
  -- all that is posted before the logout is answered alike
  have hb : ∀ posts : List Post, posts.length ≤ u.world.posted.length →
      network posts = s.world.network posts := fun posts hle => hn posts fun he => by
    rw [he, List.length_append] at hle
    exact absurd hle (Nat.not_succ_le_self _)
  have hx' : (Client.login l).exec (s.over network) = (.ok c, t.over network) := by
    rw [Calling.exec_over (Client.login l) fun posts _ hle => hb posts ?_, hx]
    rw [hx] at hle
    exact Nat.le_trans hle hlt
  have ht : t.world.network = s.world.network := by
    have hq := quiet_login l s
    rw [hx] at hq
    exact hq.network
  have hr' : (Client.execute e.func input streams).exec (t.over network) = (r, u.over network) := by
    rw [Calling.exec_over _ fun posts _ hle => (hb posts ?_).trans (by rw [ht]), hr]
    rw [hr] at hle
    exact hle
  rw [exec_attended_of_admitted hl hx', hr', exec_logout_over (hu.frame.config ▸ hout)]

end

/-! ### Runs -/

/-- A run that ends with an error, and shows and writes nothing. -/
structure Fruitless (w : World) (code : UInt32) (t : World) : Prop where
  code : code = 1
  output : t.output = w.output
  disk : t.disk = w.disk

section

variable {args : List String} {m : Mode} {e : Errand} {w t u : World} {code : UInt32}
  (h : Arguments.parse args = .ok ⟨m, .call e⟩) (hr : (Command.program args).run w = (code, t))
include h hr

theorem fruitless_of_fetch_eq_error {c : Complaint} (hf : ((fetch e).exec w).1 = .error c) :
    Fruitless w code t := by
  have hw := quiet_fetch e w
  obtain ⟨errors, he⟩ := run_of_fetch_eq_error h (Prod.ext hf rfl)
  cases hr.symm.trans he
  exact ⟨rfl, hw.output, hw.disk⟩

/-- All that is posted in a call is posted before its reply is shown. -/
theorem posted_of_fetch : t.posted = ((fetch e).exec w).2.posted := by
  rcases hf : (fetch e).exec w with ⟨x, u⟩
  cases x with
  | error c =>
    obtain ⟨errors, he⟩ := run_of_fetch_eq_error h hf
    cases hr.symm.trans he
    rfl
  | ok r =>
    obtain ⟨done, rest, disk, errors, code, hd, -⟩ := run_of_fetch_eq_ok h hf
    cases hr.symm.trans hd
    rfl

theorem fruitless_of_fetch_eq {c : Complaint} (hf : (fetch e).exec w = (.error c, w)) :
    Fruitless w code t ∧ t.posted = w.posted :=
  ⟨fruitless_of_fetch_eq_error h hr (congrArg Prod.fst hf),
    (posted_of_fetch h hr).trans (congrArg (fun x => x.2.posted) hf)⟩

/-- Where another network leads to the same reply, the rest of the run is the same. -/
theorem run_over_of_fetch {network : List Post → Except String Response}
    (hf : (fetch e).exec (w.over network) =
      (((fetch e).exec w).1, ((fetch e).exec w).2.over network)) :
    (Command.program args).run (w.over network) = (code, t.over network) := by
  rcases hu : (fetch e).exec w with ⟨x, u⟩
  rw [hu] at hf
  rw [Command.run_program h] at hr ⊢
  simp only [Command.run, call_eq, exec_bind, hu, hf] at hr ⊢
  cases x with
  | error c =>
    cases hr
    rfl
  | ok r =>
    obtain ⟨done, rest, disk, errors, x, hx, -⟩ := exec_deliver m e.folder r u
    -- what follows posts nothing more
    have ho : (deliver m e.folder r).exec (u.over network) = _ :=
      Job.exec_over _ fun posts hl hle => by
        rw [hx] at hle
        exact absurd hle (Nat.not_le_of_lt hl)
    simp only [ho, hx] at hr ⊢
    cases x <;> cases hr <;> rfl

end

/-- A call with no time to keep replies of logins and logouts. If its input does not read or a file
does not open, nothing is posted. Without a login there is no post but that of the call. With one,
that is posted first; if it fails nothing else is, and if it succeeds the last post is the logout
with its token, whatever comes of the call. The call that fails shows and writes nothing, and the
answer to the logout makes no difference. -/
theorem call_logs_out_last {args : List String} {m : Mode} {e : Errand}
    (h : Arguments.parse args = .ok ⟨m, .call e⟩) {w t : World} {code : UInt32}
    (hin : (Config.load.run w).1.ttl? "auth.login" = none)
    (hout : (Config.load.run w).1.ttl? "auth.logout" = none)
    (hr : (Command.program args).run w = (code, t)) :
    (∀ c, inputOf e.input = .error c → Fruitless w code t ∧ t.posted = w.posted) ∧
    (∀ path ∈ e.files, ∀ message, w.opened path = .error message →
      Fruitless w code t ∧ t.posted = w.posted) ∧
    ∀ input streams, inputOf e.input = .ok input →
      List.Forall₂ (fun path s => w.opened path = .ok s) e.files streams →
      (e.login = none → ∃ posts r, t.posted = w.posted ++ posts ∧
        Asked w.network w.posted ⟨e.func, input, none⟩ streams posts r ∧
        ∀ f, r = .error f → Fruitless w code t) ∧
      ∀ l, e.login = some l → ∃ p, p.Tells ⟨"auth.login", l.toJson, none⟩ [] ∧
        (∀ f, admitted w.network (w.posted ++ [p]) = .error f →
          Fruitless w code t ∧ t.posted = w.posted ++ [p]) ∧
        ∀ c, admitted w.network (w.posted ++ [p]) = .ok c →
          ∃ posts r last, t.posted = w.posted ++ [p] ++ posts ++ [last] ∧
            Asked w.network (w.posted ++ [p])
              ⟨e.func, input, some ⟨c.token, none⟩⟩ streams posts
              r ∧
            last.Tells ⟨"auth.logout", .null, some ⟨c.token, none⟩⟩ [] ∧
            (∀ f, r = .error f → Fruitless w code t) ∧
            ∀ network, (∀ posts, posts ≠ t.posted → network posts = w.network posts) →
              (Command.program args).run (w.over network) = (code, t.over network) := by
  refine ⟨fun c hc => fruitless_of_fetch_eq h hr (exec_fetch_of_unread hc),
    fun path hp message hm => ?_, fun input streams hi ho => ?_⟩
  · obtain ⟨c, hc⟩ := exec_fetch_of_unopened hp hm
    exact fruitless_of_fetch_eq h hr hc
  let s : State := ⟨.ofConfig (Config.load.run w).1, w⟩
  have hf : (fetch e).exec w = _ := exec_fetch_of_opened hi ho
  have hp : t.posted = ((attended e input streams).exec s).2.world.posted := by
    rw [posted_of_fetch h hr, hf]
  have hn (f : Failure) (hx : ((attended e input streams).exec s).1 = .error f) :
      Fruitless w code t := by
    refine fruitless_of_fetch_eq_error h hr (c := .failure f) ?_
    rw [hf]
    exact congrArg (Except.mapError Complaint.failure) hx
  refine ⟨fun hl => ?_, fun l hl => ?_⟩
  · obtain ⟨posts, hps, ha⟩ := (executed_execute s ⟨e.func, input, streams⟩).asked rfl
    rw [exec_attended_of_unasked hl rfl] at hp hn
    exact ⟨posts, _, hp.trans hps, ha, hn⟩
  · obtain ⟨p, u, hx, hpl, hpu, hcu, hku⟩ := exists_post_of_login (s := s) l hin
    refine ⟨p, hpl, fun f hrf => ?_, fun c hac => ?_⟩
    · have hx : (Client.login l).exec s = (.error f, u) := hx.trans (Prod.ext hrf rfl)
      rw [exec_attended_of_refused hl hx] at hp hn
      exact ⟨hn f rfl, hp.trans hpu⟩
    · have hx : (Client.login l).exec s = (.ok c, u) := hx.trans (Prod.ext hac rfl)
      have hq := quiet_login l s
      rw [hx] at hq
      have hou : u.client.config.ttl? "auth.logout" = none := hcu ▸ hout
      obtain ⟨posts, last, hpp, ha, ht⟩ :=
        exists_posts_of_admitted input streams hl hx hku hou
      rw [hpu, hq.network] at ha
      rw [hpu] at hpp
      refine ⟨posts, _, last, hp.trans hpp, ha, ht, hn, fun network hnet => ?_⟩
      have ho' :
          List.Forall₂ (fun path s => (w.over network).opened path = .ok s) e.files streams :=
        ho.imp fun path _ hs => (opened_over w path).trans hs
      have hv : (attended e input streams).exec (s.over network) = _ :=
        exec_attended_over hl hx hou (hp ▸ hnet)
      refine run_over_of_fetch h hr ?_
      rw [exec_fetch_of_opened hi ho', run_load_over, hf]
      exact Prod.ext (congrArg (fun x => x.1.mapError Complaint.failure) hv)
        (congrArg (fun x => x.2.world) hv)

theorem call_logs_out_last_admitting :
    ∃ code t p posts last,
      (Command.program ["call", "f", "--email", "u", "--password", "p"]).run admitting.world =
        (code, t) ∧
      p.Tells ⟨"auth.login", Login.toJson ⟨"u", "p"⟩, none⟩ [] ∧
      t.posted = [p] ++ posts ++ [last] ∧
      last.Tells ⟨"auth.logout", .null, some ⟨"k", none⟩⟩ [] ∧
      ∀ network,
        (∀ posts, posts ≠ t.posted → network posts = admitting.world.network posts) →
        (Command.program ["call", "f", "--email", "u", "--password", "p"]).run
          (admitting.world.over network) = (code, t.over network) := by
  have h : Arguments.parse ["call", "f", "--email", "u", "--password", "p"] =
      .ok ⟨.human, .call ⟨"f", none, [], some ⟨"u", "p"⟩, "."⟩⟩ := by
    with_unfolding_all rfl
  obtain ⟨p, hp, -, hok⟩ :=
    (call_logs_out_last h (w := admitting.world) (by with_unfolding_all rfl)
      (by with_unfolding_all rfl) rfl).2.2 .null [] rfl .nil |>.2 ⟨"u", "p"⟩ rfl
  have ha : admitted admitting.world.network (admitting.world.posted ++ [p]) =
      .ok ⟨"k", none, "", ""⟩ := by
    with_unfolding_all rfl
  obtain ⟨posts, r, last, ht, -, hl, -, hn⟩ := hok _ ha
  exact ⟨_, _, p, posts, last, rfl, hp, ht, hl, hn⟩

end RemoteCall
