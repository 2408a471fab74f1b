import RemoteCall.Proofs.Command.Call

/-!
Where attachments go. Main statements: whatever a server names them, they are written into the
folder that was asked for and nowhere else; after a call that ends without an error each name holds
the last attachment that it stands for.
-/

namespace RemoteCall

open Job

/-! ### Names -/

/-- A plain name is kept. -/
theorem attachmentName_eq_self {name : String} (h : Path.Plain name.toList) :
    attachmentName name = name := by
  rw [attachmentName, h.fileName?_eq]
  exact String.ofList_toList

/-! ### Where they are written -/

variable {args : List String} {m : Mode} {e : Errand} {w : World} {q : Disk.Place}

/-- A call changes no place but those of its attachments, each directly in the folder. -/
theorem mem_attachments_of_run_call (h : Arguments.parse args = .ok ⟨m, .call e⟩)
    (hq : ((Command.program args).run w).2.disk.item? q ≠ w.disk.item? q) :
    ∃ r p, ((fetch e).exec w).1 = .ok r ∧ w.disk.Leads w.folder e.folder.toList p ∧
      ∃ a ∈ r.attachments, q = p ++ [(attachmentName a.name).toList] := by
  have hw := quiet_fetch e w
  rcases hf : (fetch e).exec w with ⟨r, t⟩
  rw [hf] at hw
  cases r with
  | error c =>
    obtain ⟨errors, hr⟩ := run_of_fetch_eq_error h hf
    rw [hr] at hq
    exact absurd (congrArg (Disk.item? · q) hw.disk) hq
  | ok r =>
    obtain ⟨done, rest, disk, errors, code, hr, ha, -, hs⟩ := run_of_fetch_eq_ok h hf
    rw [hr] at hq
    rw [hw.disk, hw.folder] at hs
    obtain ⟨p, hp, f, hm, he⟩ := hs.leads_of_item?_ne hq
    obtain ⟨a, had, rfl⟩ := List.mem_map.1 hm
    exact ⟨r, p, rfl, hp, a, by rw [ha]; exact List.mem_append_left _ had, he⟩

theorem destination_nil (a : Attachment) : destination "" a = attachmentName a.name := by
  rw [destination, Path.join, (plain_attachmentName a.name).isAbsolute_eq]
  exact String.ofList_toList

theorem quiet_logo (s : State) : s.world.Quiet (Client.logo.exec s).2.world := by
  have hx : s.world.Quiet ((Client.execute "misc.get_logo" .null []).exec s).2.world :=
    (executed_execute s ⟨"misc.get_logo", .null, []⟩).quiet
  simp only [Client.logo, Calling.exec_bind]
  rcases hr : (Client.execute "misc.get_logo" .null []).exec s with ⟨r, t⟩
  rw [hr] at hx
  cases r <;> exact hx

/-- The logo without a path changes no place but that of its name, directly where one is. -/
theorem eq_logo_of_run_logo (h : Arguments.parse args = .ok ⟨m, .logo none⟩)
    (hq : ((Command.program args).run w).2.disk.item? q ≠ w.disk.item? q) :
    ∃ a, ((ofCalling Client.logo).exec w).1 = .ok a ∧
      q = w.folder ++ [(attachmentName a.name).toList] := by
  have hw : w.Quiet ((ofCalling Client.logo).exec w).2 := by
    rw [exec_ofCalling]
    exact quiet_logo ⟨.ofConfig (Config.load.run w).1, w⟩
  rcases hx : (ofCalling Client.logo).exec w with ⟨r, t⟩
  rw [hx] at hw
  simp only [Command.run_program h, Command.run, Job.logo, exec_bind, hx] at hq
  cases r with
  | error c => exact absurd (congrArg (Disk.item? · q) hw.disk) hq
  | ok a =>
    refine ⟨a, rfl, ?_⟩
    simp only [Option.getD_none, ← destination_nil, exec_write] at hq
    cases hd : t.disk.write t.folder (Path.join "".toList (entry a).1) (entry a).2 with
    | error f =>
      rw [hd] at hq
      exact absurd (congrArg (Disk.item? · q) hw.disk) hq
    | ok disk =>
      obtain ⟨p, hp⟩ := Disk.puts_of_write (plain_attachmentName a.name) hd
      have hh : w.folder = p := hw.folder.symm.trans (Except.ok.inj hp.leads.walk)
      by_contra hne
      have hc : disk.item? q = w.disk.item? q :=
        (hp.item?_of_ne fun he => hne (he.trans (by rw [hh]))).trans
          (congrArg (Disk.item? · q) hw.disk)
      rw [hd] at hq
      cases m <;> exact hq hc

/-- An attachment is written under a plain name, which is its own if that is plain already. Its path
leads directly into the folder. A call changes no place but those of its attachments in the folder
that was asked for, and the logo without a path none but its own in the folder where one is. -/
theorem attachments_stay_in_folder :
    (∀ name, Path.Plain (attachmentName name).toList) ∧
    (∀ name : String, Path.Plain name.toList → attachmentName name = name) ∧
    (∀ folder a,
      Path.names (destination folder a).toList =
        Path.names folder.toList ++ [(attachmentName a.name).toList] ∧
      Path.isAbsolute (destination folder a).toList = Path.isAbsolute folder.toList) ∧
    (∀ args m e w q, Arguments.parse args = .ok ⟨m, .call e⟩ →
      ((Command.program args).run w).2.disk.item? q ≠ w.disk.item? q →
      ∃ r p, ((fetch e).exec w).1 = .ok r ∧ w.disk.Leads w.folder e.folder.toList p ∧
        ∃ a ∈ r.attachments, q = p ++ [(attachmentName a.name).toList]) ∧
    ∀ args m w q, Arguments.parse args = .ok ⟨m, .logo none⟩ →
      ((Command.program args).run w).2.disk.item? q ≠ w.disk.item? q →
      ∃ a, ((ofCalling Client.logo).exec w).1 = .ok a ∧
        q = w.folder ++ [(attachmentName a.name).toList] := by
  refine ⟨plain_attachmentName, fun _ => attachmentName_eq_self, fun folder a => ?_,
    fun _ _ _ _ _ => mem_attachments_of_run_call, fun _ _ _ _ => eq_logo_of_run_logo⟩
  have hp := plain_attachmentName a.name
  rw [destination, String.toList_ofList]
  exact ⟨hp.names_join _, hp.isAbsolute_join _⟩

/-- Asks for a function, with attachments to the folder where one is. -/
def errand : Errand := ⟨"f", none, [], none, "."⟩

/-- A world that answers with two attachments, whose names end alike. -/
def namesakes : World := .answering (.ok ⟨200, some "multipart/x; boundary=b",
  [45, 45, 98, 13, 10, 13, 10, 123, 34, 111, 117, 116, 112, 117, 116, 34, 58, 49, 125, 13, 10, 45,
    45, 98, 13, 10, 67, 111, 110, 116, 101, 110, 116, 45, 68, 105, 115, 112, 111, 115, 105, 116,
    105, 111, 110, 58, 32, 102, 105, 108, 101, 110, 97, 109, 101, 61, 34, 97, 47, 120, 34, 13, 10,
    67, 111, 110, 116, 101, 110, 116, 45, 84, 121, 112, 101, 58, 32, 116, 13, 10, 13, 10, 49, 13,
    10, 45, 45, 98, 13, 10, 67, 111, 110, 116, 101, 110, 116, 45, 68, 105, 115, 112, 111, 115, 105,
    116, 105, 111, 110, 58, 32, 102, 105, 108, 101, 110, 97, 109, 101, 61, 34, 47, 120, 34, 13, 10,
    67, 111, 110, 116, 101, 110, 116, 45, 84, 121, 112, 101, 58, 32, 116, 13, 10, 13, 10, 50, 13,
    10, 45, 45, 98, 45, 45]⟩)

theorem parse_errand : Arguments.parse ["call", "f"] = .ok ⟨.human, .call errand⟩ := by
  with_unfolding_all rfl

theorem attachments_stay_in_folder_namesakes :
    Path.Plain "x".toList ∧ attachmentName "x" = "x" ∧
      ((Command.program ["call", "f"]).run namesakes).2.disk.item? ["x".toList] ≠
        namesakes.disk.item? ["x".toList] ∧
      ∃ r p, ((fetch errand).exec namesakes).1 = .ok r ∧ namesakes.disk.Leads [] ['.'] p ∧
        ∃ a ∈ r.attachments, ["x".toList] = p ++ [(attachmentName a.name).toList] := by
  have hx : Path.Plain "x".toList := by decide
  have hq : ((Command.program ["call", "f"]).run namesakes).2.disk.item? ["x".toList] ≠
      namesakes.disk.item? ["x".toList] := by
    decide +kernel
  obtain ⟨-, hs, -, hc, -⟩ := attachments_stay_in_folder
  exact ⟨hx, hs _ hx, hq, hc _ _ _ _ _ parse_errand hq⟩

/-! ### What they hold -/

/-- After a call that ends without an error, every attachment can be found under its name. There it
holds what the last attachment of that name holds. -/
theorem call_keeps_last_of_name (h : Arguments.parse args = .ok ⟨m, .call e⟩) {w' : World}
    (hr : (Command.program args).run w = (0, w')) :
    ∃ r t, (fetch e).exec w = (.ok r, t) ∧ ∀ a ∈ r.attachments, ∃ front b back,
      r.attachments = front ++ b :: back ∧ attachmentName b.name = attachmentName a.name ∧
      (∀ c ∈ back, attachmentName c.name ≠ attachmentName a.name) ∧
      w'.disk.find w'.folder (destination e.folder a).toList = .ok (.file b.data) := by
  rcases hf : (fetch e).exec w with ⟨x, t⟩
  cases x with
  | error c =>
    obtain ⟨errors, he⟩ := run_of_fetch_eq_error h hf
    cases hr.symm.trans he
  | ok r =>
    refine ⟨r, t, rfl, fun a ha => ?_⟩
    obtain ⟨done, rest, disk, errors, code, hd, he, hc, hs⟩ := run_of_fetch_eq_ok h hf
    cases hr.symm.trans hd
    rw [hc.1 rfl, List.append_nil] at he
    obtain ⟨front, data, back, hm, hb, hfind⟩ :=
      hs.exists_last (List.mem_map_of_mem (he ▸ ha))
    obtain ⟨before, after, rfl, -, hm⟩ := List.map_eq_append_iff.1 hm
    obtain ⟨b, behind, rfl, hbe, rfl⟩ := List.map_eq_cons_iff.1 hm
    obtain ⟨hn, rfl⟩ := Prod.mk.inj hbe
    refine ⟨before, b, behind, he, String.toList_inj.1 hn, fun c hc hne => ?_, ?_⟩
    · exact hb (entry c) (List.mem_map_of_mem hc) (congrArg String.toList hne)
    · rw [destination, String.toList_ofList]
      exact hfind

theorem call_keeps_last_of_name_namesakes :
    ∃ w', (Command.program ["call", "f"]).run namesakes = (0, w') ∧
      ∃ r t, (fetch errand).exec namesakes = (.ok r, t) ∧
        ∀ a ∈ r.attachments, ∃ b ∈ r.attachments,
          attachmentName b.name = attachmentName a.name ∧
          w'.disk.find w'.folder (destination errand.folder a).toList = .ok (.file b.data) := by
  have hc : ((Command.program ["call", "f"]).run namesakes).1 = 0 := by decide +kernel
  have hr : (Command.program ["call", "f"]).run namesakes =
      (0, ((Command.program ["call", "f"]).run namesakes).2) := by
    rw [← hc]
  obtain ⟨r, t, hf, hk⟩ := call_keeps_last_of_name parse_errand hr
  refine ⟨_, hr, r, t, hf, fun a ha => ?_⟩
  obtain ⟨front, b, back, he, hn, -, hfind⟩ := hk a ha
  exact ⟨b, he ▸ List.mem_append_right _ List.mem_cons_self, hn, hfind⟩

set_option maxRecDepth 10000 in
/-- Of two attachments whose names end alike, a call that ends without an error loses the first. -/
theorem call_loses_namesake :
    ((Command.program ["call", "f"]).run namesakes).1 = 0 ∧
      (∃ output t, (fetch errand).exec namesakes =
        (.ok ⟨output, [⟨[49], "a/x", "t"⟩, ⟨[50], "/x", "t"⟩]⟩, t)) ∧
      ((Command.program ["call", "f"]).run namesakes).2.disk.find []
        (destination errand.folder ⟨[49], "a/x", "t"⟩).toList ≠ .ok (.file [49]) := by
  have hx : ((Command.program ["call", "f"]).run namesakes).2.disk.find []
      (destination errand.folder ⟨[49], "a/x", "t"⟩).toList = .ok (.file [50]) := by
    with_unfolding_all rfl
  refine ⟨by decide +kernel, ⟨_, _, by with_unfolding_all rfl⟩, fun h => ?_⟩
  cases hx.symm.trans h

end RemoteCall
