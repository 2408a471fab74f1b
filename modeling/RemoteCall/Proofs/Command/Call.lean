import RemoteCall.Proofs.Command.Execution

/-!
The command that calls a function, part by part: first the reply is fetched, between a login and a
logout where that is asked for; then it is shown, and its attachments are written. Main statement:
fetching shows and writes nothing, whatever comes of it.
-/

namespace RemoteCall

/-- Nothing was shown or written between two worlds. -/
structure World.Quiet (v w : World) : Prop where
  disk : w.disk = v.disk
  folder : w.folder = v.folder
  network : w.network = v.network
  output : w.output = v.output

namespace World.Quiet

variable {u v w : World}

theorem refl (w : World) : w.Quiet w := ⟨rfl, rfl, rfl, rfl⟩

theorem trans (h : u.Quiet v) (h' : v.Quiet w) : u.Quiet w where
  disk := h'.disk.trans h.disk
  folder := h'.folder.trans h.folder
  network := h'.network.trans h.network
  output := h'.output.trans h.output

end World.Quiet

section

variable {s t : State} {q : Call} {r : Except Failure Reply}

theorem Posted.quiet (h : Posted s q r t) : s.world.Quiet t.world := by
  cases h <;> exact ⟨rfl, rfl, rfl, rfl⟩

theorem Executed.quiet (h : Executed s q r t) : s.world.Quiet t.world := by
  cases h with
  | kept => exact ⟨rfl, rfl, rfl, rfl⟩
  | plain _ h => exact h.quiet
  | failed _ _ _ h | fetched _ _ _ h =>
    exact ⟨h.quiet.disk, h.quiet.folder, h.quiet.network, h.quiet.output⟩

end

/-! ### Between a login and a logout -/

section

variable {e : Errand} {input : Json} {streams : List Stream} {s t : State}

theorem isAuthenticated_execute (q : Call) (s : State) :
    (q.execute.exec s).2.client.isAuthenticated = s.client.isAuthenticated := by
  rw [Client.isAuthenticated, (executed_execute s q).frame.session, Client.isAuthenticated]

/-- Whoever is let in is known. -/
theorem session_of_login {l : Login} {c : Credentials}
    (h : (Client.login l).exec s = (.ok c, t)) :
    t.client.session = .authenticated ⟨c.token, none⟩ := by
  rcases hx : (Client.execute "auth.login" l.toJson []).exec (s.withSession fun _ => .anonymous)
    with ⟨r, u⟩
  rw [exec_login hx, Prod.mk.injEq] at h
  obtain ⟨hc, rfl⟩ := h
  rw [Operation.leaving, hc]
  rfl

theorem exec_logout_true (s : State) :
    (Client.logout true).exec s =
      (.ok ⟨⟩,
        ((Client.execute "auth.logout" .null []).exec s).2.withSession fun _ => .anonymous) := by
  rcases hx : (Client.execute "auth.logout" .null []).exec s with ⟨r, t⟩
  rw [exec_logout hx]
  cases r with
  | ok r => rfl
  | error f => simp only [Bool.or_true, if_true]

variable {e : Errand} {input : Json} {streams : List Stream}

theorem exec_attended_of_unasked (hl : e.login = none) (hs : s.client.session = .anonymous) :
    (Job.attended e input streams).exec s = (Client.execute e.func input streams).exec s := by
  have ha := isAuthenticated_execute ⟨e.func, input, streams⟩ s
  rw [Client.isAuthenticated, Client.isAuthenticated, hs] at ha
  simp only [Job.attended, hl, Calling.exec_bind, Calling.exec_outcome, Calling.exec_get]
  rw [if_neg (by rw [Client.isAuthenticated]; exact Bool.eq_false_iff.1 ha)]
  rfl

theorem exec_attended_of_refused {l : Login} {f : Failure} (hl : e.login = some l)
    (h : (Client.login l).exec s = (.error f, t)) :
    (Job.attended e input streams).exec s = (.error f, t) := by
  simp only [Job.attended, hl, Calling.exec_bind, h]

theorem exec_attended_of_admitted {l : Login} {c : Credentials} (hl : e.login = some l)
    (h : (Client.login l).exec s = (.ok c, t)) :
    (Job.attended e input streams).exec s =
      (((Client.execute e.func input streams).exec t).1,
        ((Client.logout true).exec ((Client.execute e.func input streams).exec t).2).2) := by
  have ha := isAuthenticated_execute ⟨e.func, input, streams⟩ t
  rw [Client.isAuthenticated, Client.isAuthenticated, session_of_login h] at ha
  simp only [Job.attended, hl, Calling.exec_bind, h, Calling.exec_outcome, Calling.exec_get]
  rw [if_pos (by rw [Client.isAuthenticated]; exact ha)]
  simp only [Calling.exec_bind, exec_logout_true, Calling.exec_ofExcept]

theorem quiet_login (l : Login) (s : State) :
    s.world.Quiet ((Client.login l).exec s).2.world := by
  rw [exec_login rfl]
  exact
    (executed_execute (s.withSession fun _ => .anonymous) ⟨"auth.login", l.toJson, []⟩).quiet

theorem quiet_logout (s : State) : s.world.Quiet ((Client.logout true).exec s).2.world := by
  rw [exec_logout_true]
  exact (executed_execute s ⟨"auth.logout", .null, []⟩).quiet

theorem quiet_attended (hs : s.client.session = .anonymous) :
    s.world.Quiet ((Job.attended e input streams).exec s).2.world := by
  have hx (s : State) : s.world.Quiet ((Client.execute e.func input streams).exec s).2.world :=
    (executed_execute s ⟨e.func, input, streams⟩).quiet
  cases hl : e.login with
  | none =>
    rw [exec_attended_of_unasked hl hs]
    exact hx s
  | some l =>
    have hq := quiet_login l s
    rcases h : (Client.login l).exec s with ⟨r, t⟩
    rw [h] at hq
    cases r with
    | error f =>
      rw [exec_attended_of_refused hl h]
      exact hq
    | ok c =>
      rw [exec_attended_of_admitted hl h]
      exact (hq.trans (hx t)).trans (quiet_logout _)

end

/-! ### Fetching and showing -/

namespace Job

/-- The part of a call up to its reply. -/
def fetch (e : Errand) : Job Reply := do
  let input ← ofExcept (inputOf e.input)
  let streams ← openAll e.files
  ofCalling (attended e input streams)

/-- The part of a call behind its reply. -/
def deliver (m : Mode) (folder : String) (r : Reply) : Job PUnit := do
  say (m.render r.output)
  writeAll m folder r.attachments

variable {m : Mode} {e : Errand} {w : World}

theorem call_eq (m : Mode) (e : Errand) : call m e = fetch e >>= deliver m e.folder := by
  simp only [call, fetch, bind_assoc]
  rfl

theorem exec_fetch_of_unread {c : Complaint} (h : inputOf e.input = .error c) :
    (fetch e).exec w = (.error c, w) := by
  simp only [fetch, exec_bind, exec_ofExcept, h]

theorem exec_fetch_of_unopened {path message : String} (hp : path ∈ e.files)
    (h : w.opened path = .error message) : ∃ c, (fetch e).exec w = (.error c, w) := by
  cases hi : inputOf e.input with
  | error c => exact ⟨c, exec_fetch_of_unread hi⟩
  | ok input =>
    obtain ⟨c, hc⟩ := Outcome.exists_mapM_eq_error
      (f := fun path => (w.opened path).mapError (Complaint.opening path)) hp (by rw [h]; rfl)
    exact ⟨c, by simp only [fetch, exec_bind, exec_ofExcept, hi, exec_openAll, hc]⟩

theorem exec_fetch_of_opened {input : Json} {streams : List Stream}
    (hi : inputOf e.input = .ok input)
    (hs : List.Forall₂ (fun path s => w.opened path = .ok s) e.files streams) :
    (fetch e).exec w =
      let t := (attended e input streams).exec ⟨.ofConfig (Config.load.run w).1, w⟩
      (t.1.mapError .failure, t.2.world) := by
  have hm : e.files.mapM (fun path => (w.opened path).mapError (Complaint.opening path)) =
      .ok streams :=
    Outcome.mapM_eq_ok_iff.2 (hs.imp fun _ _ h => Outcome.mapError_eq_ok_iff.2 h)
  simp only [fetch, exec_bind, exec_ofExcept, hi, exec_openAll, hm, exec_ofCalling]

theorem quiet_fetch (e : Errand) (w : World) : w.Quiet ((fetch e).exec w).2 := by
  simp only [fetch, exec_bind, exec_ofExcept, exec_openAll]
  cases inputOf e.input with
  | error c => exact .refl w
  | ok input =>
    dsimp only
    cases e.files.mapM fun path => (w.opened path).mapError (Complaint.opening path) with
    | error c => exact .refl w
    | ok streams =>
      simp only [exec_ofCalling]
      exact quiet_attended (s := ⟨.ofConfig (Config.load.run w).1, w⟩) rfl

theorem exec_deliver (m : Mode) (folder : String) (r : Reply) (w : World) :
    ∃ done rest disk errors x,
      (deliver m folder r).exec w =
        (x, { w with output := w.output ++ (m.render r.output ++ "\n"), disk, errors }) ∧
      r.attachments = done ++ rest ∧ (x = .ok ⟨⟩ ↔ rest = []) ∧
      Disk.Stored w.folder folder.toList w.disk (done.map entry) disk :=
  exec_writeAll m folder r.attachments
    { w with output := w.output ++ (m.render r.output ++ "\n") }

end Job

/-! ### Runs -/

section

open Job

variable {args : List String} {m : Mode} {e : Errand} {w t : World}

/-- A call that gets no reply ends with an error, and shows and writes nothing. -/
theorem run_of_fetch_eq_error (h : Arguments.parse args = .ok ⟨m, .call e⟩) {c : Complaint}
    (hf : (fetch e).exec w = (.error c, t)) :
    ∃ errors, (Command.program args).run w = (1, { t with errors }) := by
  simp only [Command.run_program h, Command.run, call_eq, exec_bind, hf]
  exact ⟨_, rfl⟩

/-- A call that gets a reply shows it, and writes attachments in their order; all of them exactly if
it ends without an error. -/
theorem run_of_fetch_eq_ok (h : Arguments.parse args = .ok ⟨m, .call e⟩) {r : Reply}
    (hf : (fetch e).exec w = (.ok r, t)) :
    ∃ done rest disk errors code,
      (Command.program args).run w =
        (code, { t with output := t.output ++ (m.render r.output ++ "\n"), disk, errors }) ∧
      r.attachments = done ++ rest ∧ (code = 0 ↔ rest = []) ∧
      Disk.Stored t.folder e.folder.toList t.disk (done.map entry) disk := by
  obtain ⟨done, rest, disk, errors, x, hx, ha, hok, hs⟩ := exec_deliver m e.folder r t
  simp only [Command.run_program h, Command.run, call_eq, exec_bind, hf, hx]
  cases x with
  | ok _ =>
    exact ⟨done, rest, disk, errors, 0, rfl, ha, ⟨fun _ => hok.1 rfl, fun _ => rfl⟩, hs⟩
  | error c =>
    exact ⟨done, rest, disk, _, 1, rfl, ha, ⟨nofun, fun h => nomatch hok.2 h⟩, hs⟩

end

end RemoteCall
