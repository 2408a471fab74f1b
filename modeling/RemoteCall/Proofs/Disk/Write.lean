import RemoteCall.Disk
import RemoteCall.Proofs.Disk.Path
import RemoteCall.Proofs.Outcome

/-!
Files written into a folder. Main statement: after some files were written there under plain names,
each name holds the last of the files that were given it, and no other place has changed.
-/

namespace RemoteCall.Disk

open Text (fields)

variable {d d' : Disk} {here p q : Place} {folder name : List Char} {data : List UInt8}

/-! ### Items -/

theorem lookup_filter_ne (h : q ≠ p) (items : List (Place × Item)) :
    (items.filter fun e => e.1 ≠ p).lookup q = items.lookup q := by
  induction items with
  | nil => rfl
  | cons e items ih =>
    obtain ⟨p', i⟩ := e
    by_cases hp : p' = p
    · subst hp
      rw [List.filter_cons_of_neg (by simp), ih, List.lookup_cons, beq_false_of_ne h]
    · rw [List.filter_cons_of_pos (by simpa using hp), List.lookup_cons, List.lookup_cons, ih]

theorem item?_set_self (d : Disk) (h : p ≠ []) (i : Item) : (d.set p i).item? p = some i := by
  rw [item?, if_neg h, set, List.lookup_cons_self]

theorem item?_set_of_ne (d : Disk) (h : q ≠ p) (i : Item) : (d.set p i).item? q = d.item? q := by
  rw [item?, item?, set, List.lookup_cons, beq_false_of_ne h, lookup_filter_ne h]

/-- Every folder of a disk is one of another. -/
def KeepsFolders (d d' : Disk) : Prop :=
  ∀ p, d.item? p = some .folder → d'.item? p = some .folder

/-! ### Where a folder is -/

theorem walk_append (d : Disk) (p : Place) (xs ys : List (List Char)) :
    d.walk p (xs ++ ys) = d.walk p xs >>= fun q => d.walk q ys := by
  induction xs generalizing p with
  | nil => rfl
  | cons x xs ih =>
    rw [List.cons_append, walk, walk]
    split
    · rfl
    · rfl
    · rw [ih, ih, ih]
      split
      · rfl
      · split
        · rfl
        · split <;> rfl

theorem KeepsFolders.walk (h : KeepsFolders d d') {names : List (List Char)}
    (hw : d.walk p names = .ok q) : d'.walk p names = .ok q := by
  induction names generalizing p with
  | nil => exact hw
  | cons name names ih =>
    rw [Disk.walk] at hw ⊢
    split at hw
    · cases hw
    · cases hw
    · next hf =>
      rw [h p hf]
      dsimp only
      split at hw
      · next hn => rw [if_pos hn, ih hw]
      · next hn =>
        rw [if_neg hn]
        split at hw
        · next hn => rw [if_pos hn, ih hw]
        · next hn =>
          rw [if_neg hn]
          split at hw
          · next hn => rw [if_pos hn, ih hw]
          · cases hw

/-- The path of a folder leads to a place, where a folder is indeed. -/
structure Leads (d : Disk) (here : Place) (folder : List Char) (p : Place) : Prop where
  walk : d.walk (origin here folder) ((fields '/' folder).filter (· ≠ [])) = .ok p
  folder : d.item? p = some .folder

theorem Leads.unique (h : d.Leads here folder p) (h' : d.Leads here folder q) : p = q :=
  Except.ok.inj (h.walk.symm.trans h'.walk)

theorem Leads.mono (h : d.Leads here folder p) (hk : KeepsFolders d d') :
    d'.Leads here folder p :=
  ⟨hk.walk h.walk, hk p h.folder⟩

/-! ### One file -/

/-- A file was written under a plain name into a folder. -/
structure Puts (d : Disk) (here : Place) (folder name : List Char) (data : List UInt8) (p : Place)
    (d' : Disk) : Prop where
  plain : Path.Plain name
  leads : d.Leads here folder p
  fits : Disk.fits name
  noNul : '\x00' ∉ Path.join folder name
  free : d.item? (p ++ [name]) ≠ some .folder
  eq : d' = d.set (p ++ [name]) (.file data)

namespace Puts

variable (h : d.Puts here folder name data p d')
include h

theorem item?_self : d'.item? (p ++ [name]) = some (.file data) := by
  rw [h.eq, item?_set_self d (List.append_ne_nil_of_right_ne_nil _ (List.cons_ne_nil _ _))]

theorem item?_of_ne (hq : q ≠ p ++ [name]) : d'.item? q = d.item? q := by
  rw [h.eq, item?_set_of_ne d hq]

theorem keepsFolders : KeepsFolders d d' := fun q hq => by
  rw [h.item?_of_ne fun he => h.free (he ▸ hq), hq]

end Puts

theorem origin_join (h : Path.Plain name) (here : Place) (folder : List Char) :
    origin here (Path.join folder name) = origin here folder := by
  rw [origin, origin, h.isAbsolute_join]

/-- Writing under a plain name goes where its folder leads. -/
theorem write_join (h : Path.Plain name) :
    d.write here (Path.join folder name) data = (do
      check (Path.join folder name)
      let p ← d.walk (origin here folder) ((fields '/' folder).filter (· ≠ []))
      match d.item? p with
      | none => .error .missing
      | some (.file _) => .error .notFolder
      | some .folder =>
        if fits name then
          if d.item? (p ++ [name]) = some .folder then .error .isFolder
          else .ok (d.set (p ++ [name]) (.file data))
        else .error .longName) := by
  have hd : ¬ (name = ['.'] ∨ name = ['.', '.']) := not_or.2 ⟨h.ne_dot, h.ne_dots⟩
  rw [write]
  simp only [h.steps_join, List.dropLast_concat, List.getLast?_concat, origin_join h,
    h.getLast?_join folder, false_or]
  congr 1
  funext _
  congr 1
  funext p
  cases d.item? p with
  | none => rfl
  | some i =>
    cases i with
    | file _ => rfl
    | folder =>
      dsimp only
      rw [if_neg hd]
      cases fits name with
      | false => rfl
      | true =>
        by_cases hi : d.item? (p ++ [name]) = some .folder
        · simp only [if_pos hi]
          rfl
        · simp only [if_neg hi]
          rfl

theorem puts_of_write (h : Path.Plain name)
    (hw : d.write here (Path.join folder name) data = .ok d') :
    ∃ p, d.Puts here folder name data p d' := by
  simp only [write_join h, check, if_neg (h.join_ne_nil folder), Outcome.bind_eq_ok_iff] at hw
  obtain ⟨_, hc, p, hp, hw⟩ := hw
  have hz : '\x00' ∉ Path.join folder name := fun hz => by
    rw [if_pos hz] at hc
    cases hc
  split at hw
  · cases hw
  · cases hw
  · next hf =>
    split at hw
    · next hn =>
      split at hw
      · cases hw
      · next hi => exact ⟨p, h, ⟨hp, hf⟩, hn, hz, hi, (Except.ok.inj hw).symm⟩
    · cases hw

/-- What stands under a plain name in a folder is found at the path of the two. -/
theorem find_join (h : Path.Plain name) (hl : d.Leads here folder p) (hn : fits name)
    (hz : '\x00' ∉ Path.join folder name) {i : Item} (hi : d.item? (p ++ [name]) = some i) :
    d.find here (Path.join folder name) = .ok i := by
  have hw : d.walk p [name] = .ok (p ++ [name]) := by
    rw [walk, hl.folder]
    simp only [if_neg h.ne_dot, if_neg h.ne_dots, if_pos hn]
    rw [walk]
  have hs : d.walk (origin here (Path.join folder name)) (steps (Path.join folder name)) =
      .ok (p ++ [name]) := by
    rw [steps, if_neg (h.getLast?_join folder), List.append_nil, h.steps_join, origin_join h,
      walk_append, hl.walk]
    exact hw
  have hc : check (Path.join folder name) = .ok ⟨⟩ := by
    rw [check, if_neg (h.join_ne_nil folder), if_neg hz]
  rw [find]
  refine Outcome.bind_eq_ok_iff.2 ⟨⟨⟩, hc, Outcome.bind_eq_ok_iff.2 ⟨_, hs, ?_⟩⟩
  rw [hi]
  rfl

/-! ### Files one after another -/

/-- Files that are written into a folder one after another, each under its name. -/
inductive Stored (here : Place) (folder : List Char) :
    Disk → List (List Char × List UInt8) → Disk → Prop
  | nil (d : Disk) : Stored here folder d [] d
  | cons {d d' d'' : Disk} {name : List Char} {data : List UInt8} {p : Place}
    {files : List (List Char × List UInt8)} :
    d.Puts here folder name data p d' → Stored here folder d' files d'' →
    Stored here folder d ((name, data) :: files) d''

namespace Stored

variable {files : List (List Char × List UInt8)} (h : Stored here folder d files d')
include h

theorem keepsFolders : KeepsFolders d d' := by
  induction h with
  | nil d => exact fun _ hp => hp
  | cons hp _ ih => exact fun q hq => ih q (hp.keepsFolders q hq)

/-- No place has changed but those of the names in the folder. -/
theorem leads_of_item?_ne (hq : d'.item? q ≠ d.item? q) :
    ∃ p, d.Leads here folder p ∧ ∃ f ∈ files, q = p ++ [f.1] := by
  induction h with
  | nil d => exact absurd rfl hq
  | @cons d d' d'' name data p files hp _ ih =>
    by_cases hc : d''.item? q = d'.item? q
    · refine ⟨p, hp.leads, (name, data), List.mem_cons_self, ?_⟩
      by_contra hne
      exact hq (hc.trans (hp.item?_of_ne hne))
    · obtain ⟨p', hp', f, hf, he⟩ := ih hc
      cases hp'.unique (hp.leads.mono hp.keepsFolders)
      exact ⟨p, hp.leads, f, List.mem_cons_of_mem _ hf, he⟩

theorem exists_puts {f : List Char × List UInt8} (hf : f ∈ files) :
    ∃ p, d.Leads here folder p ∧ ∃ e e', Puts e here folder f.1 f.2 p e' := by
  induction h with
  | nil d => cases hf
  | @cons d d' d'' name data p files hp _ ih =>
    rcases List.mem_cons.1 hf with rfl | hf
    · exact ⟨p, hp.leads, d, d', hp⟩
    · obtain ⟨p', hl, e, e', he⟩ := ih hf
      cases hl.unique (hp.leads.mono hp.keepsFolders)
      exact ⟨p, hp.leads, e, e', he⟩

/-- What a name holds in the end: what was written to it last, or what it held before. -/
theorem item?_cases (hl : d.Leads here folder p) (name : List Char) :
    ((∀ f ∈ files, f.1 ≠ name) ∧ d'.item? (p ++ [name]) = d.item? (p ++ [name])) ∨
    ∃ front data back, files = front ++ (name, data) :: back ∧
      (∀ f ∈ back, f.1 ≠ name) ∧
      d'.item? (p ++ [name]) = some (.file data) := by
  induction h with
  | nil d => exact .inl ⟨List.forall_mem_nil _, rfl⟩
  | @cons d d' d'' name' data p' files hp _ ih =>
    cases hp.leads.unique hl
    rcases ih (hl.mono hp.keepsFolders) with ⟨hb, hi⟩ | ⟨front, data', back, rfl, hb, hi⟩
    · by_cases he : name' = name
      · subst he
        exact .inr ⟨[], data, files, rfl, hb, hi.trans hp.item?_self⟩
      · refine .inl
          ⟨List.forall_mem_cons.2 ⟨he, hb⟩, hi.trans (hp.item?_of_ne fun hc => he ?_)⟩
        exact (List.singleton_inj.1 (List.append_cancel_left hc)).symm
    · exact .inr ⟨(name', data) :: front, data', back, rfl, hb, hi⟩

/-- Each name that was written to can be found, with what was written to it last. -/
theorem exists_last {f : List Char × List UInt8} (hf : f ∈ files) :
    ∃ front data back, files = front ++ (f.1, data) :: back ∧ (∀ g ∈ back, g.1 ≠ f.1) ∧
      d'.find here (Path.join folder f.1) = .ok (.file data) := by
  obtain ⟨p, hl, _, _, hp⟩ := h.exists_puts hf
  rcases h.item?_cases hl f.1 with ⟨hb, -⟩ | ⟨front, data, back, he, hb, hi⟩
  · exact absurd rfl (hb f hf)
  · exact ⟨front, data, back, he, hb,
      find_join hp.plain (hl.mono h.keepsFolders) hp.fits hp.noNul hi⟩

end Stored

end RemoteCall.Disk
