import RemoteCall.Command.Run
import RemoteCall.Proofs.Client.Operation
import RemoteCall.Proofs.Disk.Write

/-!
What a command does in a world. Main statements: a run depends on the network only for what it
posts, and attachments are written one after another into their folder until one cannot be.
-/

namespace RemoteCall

/-! ### The network -/

/-- A world with another network. -/
def World.over (w : World) (network : List Post → Except String Response) : World :=
  { w with network }

/-- Another network answers as the world's own, for what is posted from now on up to some posts. -/
def World.Agrees (w : World) (network : List Post → Except String Response) (last : List Post) :
    Prop :=
  ∀ posts, w.posted.length < posts.length → posts.length ≤ last.length →
    network posts = w.network posts

namespace Program

variable {α : Type}

instance : LawfulMonad Program :=
  .mk' Program
    (fun p => by
      induction p with
      | done a => rfl
      | ask q next ih => exact congrArg (Program.ask q) (funext ih))
    (fun _ _ => rfl)
    (fun p f g => by
      induction p with
      | done a => rfl
      | ask q next ih => exact congrArg (Program.ask q) (funext ih))

theorem length_posted_answer (w : World) (q : Question) :
    w.posted.length ≤ (w.answer q).2.posted.length := by
  cases q with
  | post url form => simp [World.answer]
  | openFile path | writeFile path data | makeFolders path =>
    rw [World.answer]
    split <;> exact Nat.le_refl _
  | _ => exact Nat.le_refl _

theorem network_answer (w : World) (q : Question) : (w.answer q).2.network = w.network := by
  cases q with
  | openFile path | writeFile path data | makeFolders path =>
    rw [World.answer]
    split <;> rfl
  | _ => rfl

theorem length_posted_run (p : Program α) (w : World) :
    w.posted.length ≤ (p.run w).2.posted.length := by
  induction p generalizing w with
  | done a => exact Nat.le_refl _
  | ask q next ih => exact Nat.le_trans (length_posted_answer w q) (ih _ _)

variable {network : List Post → Except String Response}

theorem answer_over {w : World} {q : Question}
    (h : w.Agrees network (w.answer q).2.posted) :
    (w.over network).answer q = ((w.answer q).1, (w.answer q).2.over network) := by
  cases q with
  | post url form =>
    have hn := h (w.posted ++ [⟨url, form⟩]) (by simp) (Nat.le_refl _)
    simp only [World.answer, World.over, hn]
  | openFile path | writeFile path data | makeFolders path =>
    simp only [World.answer, World.over]
    split <;> rfl
  | _ => rfl

/-- A run asks the network for nothing but what it posts. -/
theorem run_over (p : Program α) {w : World}
    (h : w.Agrees network (p.run w).2.posted) :
    p.run (w.over network) = ((p.run w).1, (p.run w).2.over network) := by
  induction p generalizing w with
  | done a => rfl
  | ask q next ih =>
    have ha := length_posted_answer w q
    have hr := length_posted_run (next (w.answer q).1) (w.answer q).2
    rw [run_ask, answer_over fun posts hl hu => h posts hl (Nat.le_trans hu hr)]
    exact ih _ fun posts hl hu => by
      rw [network_answer, h posts (Nat.lt_of_le_of_lt ha hl) hu]

end Program

/-! ### Programs that leave the world alone -/

/-- What comes of opening a file. -/
def World.opened (w : World) (path : String) : Except String Stream := (w.answer (.openFile path)).1

theorem answer_openFile (w : World) (path : String) :
    w.answer (.openFile path) = (w.opened path, w) := by
  rw [World.opened, World.answer]
  split <;> rfl

namespace Program

variable {α β : Type}

/-- A program that leaves every world as it was. -/
def Idle (p : Program α) : Prop := ∀ w, (p.run w).2 = w

theorem idle_pure (a : α) : (pure a : Program α).Idle := fun _ => rfl

theorem Idle.bind {p : Program α} {f : α → Program β} (hp : p.Idle) (hf : ∀ a, (f a).Idle) :
    (p >>= f).Idle := fun w => by
  rw [run_bind, hp w, hf]

theorem idle_variable (name : String) : (question (.variable name)).Idle := fun _ => rfl

theorem idle_openFile (path : String) : (question (.openFile path)).Idle := fun w =>
  congrArg Prod.snd (answer_openFile w path)

theorem idle_path? : Config.path?.Idle := by
  have hh : Config.path?.home.Idle := by
    refine (idle_variable _).bind fun home => ?_
    cases home with
    | none => exact idle_pure _
    | some home =>
      dsimp only
      split <;> exact idle_pure _
  refine (idle_variable _).bind fun folder => ?_
  cases folder with
  | none => exact hh
  | some folder =>
    dsimp only
    split
    · exact idle_pure _
    · exact hh

theorem idle_readFile? (path : String) : (Config.readFile? path).Idle := by
  refine (idle_openFile path).bind fun r => ?_
  cases r with
  | error message => exact idle_pure _
  | ok s =>
    dsimp only
    cases s.read <;> exact idle_pure _

theorem idle_load : Config.load.Idle := by
  have hu (own : Option Config) : (do
      let url ← question (.variable Config.urlVariable)
      return (own.getD .default).withVariable url : Program Config).Idle :=
    (idle_variable _).bind fun _ => idle_pure _
  refine idle_path?.bind fun path => ?_
  cases path with
  | none => exact (idle_pure none).bind hu
  | some path => exact (idle_readFile? path).bind hu

end Program

/-! ### Jobs -/

namespace Job

variable {α β : Type}

/-- What comes of a job, and the world that it leaves. -/
def exec (j : Job α) (w : World) : Except Complaint α × World := (ExceptT.run j).run w

variable (w : World)

@[simp] theorem exec_pure (a : α) : exec (pure a) w = (.ok a, w) := rfl

@[simp] theorem exec_throw (c : Complaint) : exec (throw c : Job α) w = (.error c, w) := rfl

@[simp] theorem exec_ofExcept (r : Except Complaint α) : exec (ofExcept r) w = (r, w) := rfl

@[simp] theorem exec_ask (q : Question) :
    exec (ask q) w = (.ok (w.answer q).1, (w.answer q).2) :=
  rfl

theorem exec_bind (j : Job α) (f : α → Job β) :
    exec (j >>= f) w =
      match j.exec w with
      | (.ok a, t) => (f a).exec t
      | (.error c, t) => (.error c, t) := by
  have hr : ExceptT.run (j >>= f) = ExceptT.run j >>= ExceptT.bindCont f := rfl
  simp only [exec, hr, Program.run_bind]
  rcases (ExceptT.run j).run w with ⟨r, t⟩
  cases r <;> rfl

theorem exec_ofCalling (p : Calling α) :
    exec (ofCalling p) w =
      let t := p.exec ⟨.ofConfig (Config.load.run w).1, w⟩
      (t.1.mapError .failure, t.2.world) := by
  have hr : ExceptT.run (ofCalling p) = Config.load >>= fun c =>
    p.run (.ofConfig c) >>= fun r => pure (r.1.mapError .failure) := rfl
  rw [exec, hr, Program.run_bind, Program.run_bind, Program.idle_load]
  rfl

/-! ### Files to send -/

theorem exec_openAll (paths : List String) (w : World) :
    (openAll paths).exec w =
      (paths.mapM fun path => (w.opened path).mapError (.opening path), w) := by
  induction paths with
  | nil => rfl
  | cons path paths ih =>
    simp only [openAll, exec_bind, exec_ask, answer_openFile, List.mapM_cons]
    cases w.opened path with
    | error message => rfl
    | ok s =>
      simp only [exec_bind, ih]
      cases paths.mapM fun path => (w.opened path).mapError (Complaint.opening path) <;> rfl

/-! ### Attachments -/

theorem plain_attachmentName (name : String) : Path.Plain (attachmentName name).toList := by
  rw [attachmentName]
  split
  · next cs h =>
    rw [String.toList_ofList]
    exact Path.plain_of_fileName? h
  · decide

/-- An attachment as it is written: its name there, and what it holds. -/
def entry (a : Attachment) : List Char × List UInt8 := ((attachmentName a.name).toList, a.data)

theorem exec_write (folder : String) (a : Attachment) (w : World) :
    (write (destination folder a) a).exec w =
      match w.disk.write w.folder (Path.join folder.toList (entry a).1) (entry a).2 with
      | .ok disk => (.ok ⟨⟩, { w with disk })
      | .error f => (.error (.failure (.io f.message)), w) := by
  simp only [write, exec_bind, exec_ask, World.answer, destination, String.toList_ofList]
  rw [entry]
  cases w.disk.write w.folder (Path.join folder.toList (attachmentName a.name).toList) a.data with
  | ok disk => rfl
  | error f => rfl

/-- Attachments are written in their order, up to the first that cannot be. -/
theorem exec_writeAll (m : Mode) (folder : String) (attachments : List Attachment) (w : World) :
    ∃ done rest disk errors r,
      (writeAll m folder attachments).exec w = (r, { w with disk, errors }) ∧
      attachments = done ++ rest ∧ (r = .ok ⟨⟩ ↔ rest = []) ∧
      Disk.Stored w.folder folder.toList w.disk (done.map entry) disk := by
  induction attachments generalizing w with
  | nil =>
    exact ⟨[], [], w.disk, w.errors, _, rfl, rfl, ⟨fun _ => rfl, fun _ => rfl⟩, .nil _⟩
  | cons a attachments ih =>
    simp only [writeAll, exec_bind, exec_write]
    cases hw : w.disk.write w.folder (Path.join folder.toList (entry a).1) (entry a).2 with
    | error f =>
      exact ⟨[], a :: attachments, w.disk, w.errors, _, rfl, rfl, ⟨nofun, nofun⟩, .nil _⟩
    | ok disk =>
      obtain ⟨p, hp⟩ := Disk.puts_of_write (plain_attachmentName a.name) hw
      by_cases hm : m = .human
      · simp only [if_pos hm]
        obtain ⟨done, rest, disk', errors, r, hr, rfl, hok, hs⟩ := ih { w with
          disk
          errors := w.errors ++ ("saved " ++ destination folder a ++ " (" ++ a.type ++ ")\n") }
        exact ⟨a :: done, rest, disk', errors, r, hr, rfl, hok, .cons hp hs⟩
      · simp only [if_neg hm]
        obtain ⟨done, rest, disk', errors, r, hr, rfl, hok, hs⟩ := ih { w with disk }
        exact ⟨a :: done, rest, disk', errors, r, hr, rfl, hok, .cons hp hs⟩

end Job

/-! ### The program -/

theorem Command.run_program {args : List String} {o : Order} (h : Arguments.parse args = .ok o)
    (w : World) :
    (program args).run w =
      match (o.command.run o.mode).exec w with
      | (.ok _, t) => (0, t)
      | (.error c, t) =>
        (1, { t with errors := t.errors ++ ("error: " ++ c.account ++ "\n") }) := by
  rw [program, h]
  change Program.run (ExceptT.run (o.command.run o.mode) >>= _) w = _
  rw [Program.run_bind, Job.exec]
  rcases (ExceptT.run (o.command.run o.mode)).run w with ⟨r, t⟩
  cases r <;> rfl

end RemoteCall
