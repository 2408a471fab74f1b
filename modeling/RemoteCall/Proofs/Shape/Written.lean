import Mathlib.Data.List.Perm.Basic
import RemoteCall.Proofs.Json.Order
import RemoteCall.Proofs.Json.RoundTrip
import RemoteCall.Shape.Written

/-!
Reading texts by a shape. Main statements: what the text of an array, a map or a record is read as,
in whatever order its entries stand, and what the fields of a record are that was read of some text.
-/

namespace RemoteCall

open Outcome (bind_eq_ok_iff)

namespace Drafter

open Json (Draft Drafts ItemDrafts EntryDrafts Key Flaw)

/-- Every draft of a value is read as the typed value, where containers may be nested so deep. -/
def Reads (d : Drafter) (depth : Nat) (v : Json) (x : Datum) : Prop :=
  ∀ draft, Drafts v draft → d depth draft = .ok x

variable {d : Drafter} {depth : Nat}

/-! ### Texts of typed values -/

theorem reads_any {v : Json} (hw : v.Whole) (ho : v.Ordered) (hn : v.depth ≤ depth) :
    any.Reads depth v (.any v) := by
  intro draft hd
  rw [any, hw.valued ho depth draft hn hd]

theorem reads_integer {w : Width} {n : Integer} (h : w.Holds n.val) (expected : String)
    (depth : Nat) :
    (scalar expected (Decoder.integer w)).Reads depth (.integer n) (.integer n) := by
  intro draft hd
  cases hd
  simp only [Json.Number.reread_integer, scalar, Decoder.integer, h, if_true, Outcome.mapError_ok]

theorem reads_text (s : String) (depth : Nat) :
    (scalar "a string" Decoder.text).Reads depth (.string s) (.text s) := by
  intro draft hd
  cases hd
  simp only [scalar, Json.text?_unitsOf, String.ofList_toList, Decoder.text, Outcome.mapError_ok]

theorem reads_list {vs : List Json} {xs : List Datum} (h : List.Forall₂ (d.Reads depth) vs xs) :
    (list d).Reads (depth + 1) (.array vs) (.list xs) := by
  intro draft hd
  cases hd with
  | array hi =>
    have hx : ∀ ds, ItemDrafts vs ds → items d depth none ds = .ok xs := by
      clear hi
      induction h with
      | nil =>
        intro ds hi
        cases hi
        rfl
      | cons hv _ ih =>
        intro ds hi
        cases hi with
        | cons hd hi =>
          rw [items, hv _ hd, ih _ hi]
          rfl
    rw [list, hx _ hi]
    rfl

theorem reads_map {es : List (String × Json)} {xs : List (String × Datum)}
    (h : List.Forall₂ (fun e x => x.1 = e.1 ∧ d.Reads depth e.2 x.2) es xs) :
    (map .text d).Reads (depth + 1) (.object es) (.map (Entries.ofList xs)) := by
  intro draft hd
  cases hd with
  | object he =>
    have hx : ∀ ks, EntryDrafts es ks → entries .text d depth none ks = .ok xs := by
      clear he
      induction h with
      | nil =>
        intro ks he
        cases he
        rfl
      | @cons e x _ _ hv _ ih =>
        intro ks he
        obtain ⟨k, x⟩ := x
        obtain ⟨rfl, hv⟩ := hv
        cases he with
        | cons hd he =>
          rw [entries, hv _ hd, ih _ he]
          rfl
    rw [map, hx _ he]
    rfl

/-! ### Texts of records -/

theorem given_of_reads {slots : List Slot} {es : List (String × Json)}
    {xs : List (String × Datum)}
    (h : List.Forall₂ (fun e x => x.1 = e.1 ∧
      ∃ s, slot? slots e.1 = some s ∧ s.read.Reads depth e.2 x.2) es xs)
    (hn : (es.map Prod.fst).Nodup) {ks : List (Key × Draft)} (hd : EntryDrafts es ks)
    {seen : List String} (hs : ∀ e ∈ es, e.1 ∉ seen) :
    given slots depth none seen ks = .ok xs := by
  induction h generalizing ks seen with
  | nil =>
    cases hd
    rfl
  | @cons e x rest _ hv _ ih =>
    obtain ⟨k, v⟩ := e
    obtain ⟨k', x⟩ := x
    obtain ⟨rfl, s, hk, hv⟩ := hv
    obtain ⟨hne, hn'⟩ := List.nodup_cons.1 hn
    obtain ⟨hk', hs'⟩ := List.forall_mem_cons.1 hs
    cases hd with
    | cons hd hes =>
      have hseen : ∀ f ∈ rest, f.1 ∉ k' :: seen := fun f hf hm =>
        (List.mem_cons.1 hm).elim (fun he => hne (List.mem_map.2 ⟨f, hf, he⟩)) (hs' f hf)
      have hr := ih hn' hes hseen
      simp only [given, Outcome.mapError_ok, bind_eq_ok_iff]
      refine ⟨k', rfl, ?_⟩
      rw [hk]
      simp only [if_neg hk', bind_eq_ok_iff]
      exact ⟨x, hv _ hd, _, hr, rfl⟩

theorem complete_of_mem {slots : List Slot} {found fs : List (String × Datum)}
    (hn : (found.map Prod.fst).Nodup)
    (h : List.Forall₂ (fun s f => f.1 = s.name ∧ f ∈ found) slots fs) :
    complete found slots = .ok fs := by
  induction h with
  | nil => rfl
  | @cons s f _ _ hf _ ih =>
    obtain ⟨k, x⟩ := f
    obtain ⟨rfl, hm⟩ := hf
    rw [complete, Entries.get?_of_nodup hn hm, ih]
    rfl

/-- The text of an object that gives every slot its entry, in whatever order. -/
theorem reads_record (name : String) (fs : List (Slot × Json × Datum))
    (hn : (fs.map fun f => f.1.name).Nodup)
    (h : ∀ f ∈ fs, f.1.read.Reads depth f.2.1 f.2.2) {es : List (String × Json)}
    (hp : es.Perm (fs.map fun f => (f.1.name, f.2.1))) :
    (record name (fs.map Prod.fst)).Reads (depth + 1) (.object es)
      (.record (fs.map fun f => (f.1.name, f.2.2))) := by
  intro draft hd
  have hall : List.Forall₂ (fun (e : String × Json) (x : String × Datum) => x.1 = e.1 ∧
      ∃ s, slot? (fs.map Prod.fst) e.1 = some s ∧ s.read.Reads depth e.2 x.2)
      (fs.map fun f => (f.1.name, f.2.1)) (fs.map fun f => (f.1.name, f.2.2)) := by
    rw [List.forall₂_map_left_iff, List.forall₂_map_right_iff, List.forall₂_same]
    refine fun f hf => ⟨rfl, f.1, ?_, h f hf⟩
    exact Entries.find?_of_nodup (by rwa [List.map_map]) (List.mem_map_of_mem hf)
  obtain ⟨xs, hxs, hperm⟩ := List.perm_comp_forall₂ hp hall
  cases hd with
  | object he =>
    have hg : given (fs.map Prod.fst) depth none [] _ = .ok xs :=
      given_of_reads hxs ((hp.map Prod.fst).nodup_iff.2 (by rwa [List.map_map])) he
        fun _ _ => List.not_mem_nil
    have hc : complete xs (fs.map Prod.fst) = .ok (fs.map fun f => (f.1.name, f.2.2)) := by
      apply complete_of_mem ((hperm.map Prod.fst).nodup_iff.2 (by rwa [List.map_map]))
      rw [List.forall₂_map_left_iff, List.forall₂_map_right_iff, List.forall₂_same]
      exact fun f hf => ⟨rfl, hperm.mem_iff.2 (List.mem_map_of_mem hf)⟩
    simp only [record, hg, bind_eq_ok_iff]
    exact ⟨xs, rfl, _, hc, rfl⟩

/-! ### What is read of a text -/

theorem wrongKind_ne_ok {α : Type} (expected : String) (draft : Draft) (x : α) :
    (wrongKind expected draft : Except Fault α) ≠ .ok x := by
  unfold wrongKind
  intro h
  split at h
  case h_5 => split at h <;> cases h
  all_goals cases h

theorem ordered_of_any {draft : Draft} {v : Json} (h : any depth draft = .ok (.any v)) :
    v.Ordered := by
  unfold any at h
  split at h
  · next w hw =>
    cases h
    exact (Json.fits_value hw).1
  · cases h

theorem entries_eq_ok {stop : Option Flaw} {ks : List (Key × Draft)} {xs : List (String × Datum)}
    (h : entries .text d depth stop ks = .ok xs) :
    ∀ x ∈ xs, ∃ draft, d depth draft = .ok x.2 := by
  induction ks generalizing xs with
  | nil =>
    obtain ⟨_, -, h⟩ := bind_eq_ok_iff.1 h
    cases h
    exact List.forall_mem_nil _
  | cons k ks ih =>
    simp only [entries, bind_eq_ok_iff] at h
    obtain ⟨name, -, x, hx, xs, hxs, h⟩ := h
    cases h
    exact List.forall_mem_cons.2 ⟨⟨_, hx⟩, ih hxs⟩

theorem map_eq_ok {draft : Draft} {x : Datum} (h : map .text d depth draft = .ok x) :
    ∃ xs, x = .map (Entries.ofList xs) ∧
      ∀ y ∈ xs, ∃ depth draft, d depth draft = .ok y.2 := by
  unfold map at h
  split at h
  · cases h
  · cases h
  · cases h
  · obtain ⟨xs, hxs, rfl⟩ := Outcome.map_eq_ok_iff.1 h
    refine ⟨xs, rfl, fun y hy => ?_⟩
    exact ⟨_, entries_eq_ok hxs y hy⟩
  · exact absurd h (wrongKind_ne_ok _ _ _)

/-- What a slot may give to a record: what it reads somewhere, or what stands for it. -/
def Slot.Gives (s : Slot) (x : Datum) : Prop :=
  (∃ depth draft, s.read depth draft = .ok x) ∨ s.default = some x ∨ s.missing = some x

section

variable {slots : List Slot} {stop : Option Flaw}

theorem given_eq_ok {seen : List String} {ks : List (Key × Draft)} {xs : List (String × Datum)}
    (h : given slots depth stop seen ks = .ok xs) :
    ∀ x ∈ xs, ∃ s, slot? slots x.1 = some s ∧ s.Gives x.2 := by
  induction ks generalizing seen xs with
  | nil =>
    obtain ⟨_, -, h⟩ := bind_eq_ok_iff.1 h
    cases h
    exact List.forall_mem_nil _
  | cons k ks ih =>
    simp only [given, bind_eq_ok_iff] at h
    obtain ⟨name, -, h⟩ := h
    split at h
    · split at h
      · cases h
      · exact ih h
    · next s hs =>
      split at h
      · cases h
      · simp only [bind_eq_ok_iff] at h
        obtain ⟨x, hx, xs, hxs, h⟩ := h
        cases h
        exact List.forall_mem_cons.2 ⟨⟨s, hs, .inl ⟨_, _, hx⟩⟩, ih hxs⟩

theorem complete_eq_ok {found fs : List (String × Datum)} (h : complete found slots = .ok fs) :
    ∀ f ∈ fs, ∃ s ∈ slots, s.name = f.1 ∧ (f ∈ found ∨ s.missing = some f.2) := by
  induction slots generalizing fs with
  | nil =>
    cases h
    exact List.forall_mem_nil _
  | cons s slots ih =>
    have hcons {x : Datum} (hx : (s.name, x) ∈ found ∨ s.missing = some x)
        {gs : List (String × Datum)} (hgs : complete found slots = .ok gs) :
        ∀ f ∈ (s.name, x) :: gs, ∃ t ∈ s :: slots, t.name = f.1 ∧
          (f ∈ found ∨ t.missing = some f.2) := by
      refine List.forall_mem_cons.2 ⟨⟨s, List.mem_cons_self, rfl, hx⟩, fun f hf => ?_⟩
      obtain ⟨t, ht, h⟩ := ih hgs f hf
      exact ⟨t, List.mem_cons_of_mem s ht, h⟩
    rw [complete] at h
    split at h
    · next x hx =>
      simp only [pure_bind, bind_eq_ok_iff] at h
      obtain ⟨gs, hgs, h⟩ := h
      cases h
      exact hcons (.inl (Entries.mem_of_get? hx)) hgs
    · split at h
      · next x hx =>
        simp only [pure_bind, bind_eq_ok_iff] at h
        obtain ⟨gs, hgs, h⟩ := h
        cases h
        exact hcons (.inr hx) hgs
      · cases h

theorem positional_eq_ok {expected : String} {read : Nat} {vs rest : List Draft}
    {fs : List (String × Datum)}
    (h : positional expected depth read stop slots vs = .ok (fs, rest)) :
    ∀ f ∈ fs, ∃ s ∈ slots, s.name = f.1 ∧ s.Gives f.2 := by
  induction slots generalizing read vs fs with
  | nil =>
    cases h
    exact List.forall_mem_nil _
  | cons s slots ih =>
    have htail {read : Nat} {vs : List Draft} {fs : List (String × Datum)}
        (h : positional expected depth read stop slots vs = .ok (fs, rest)) :
        ∀ f ∈ fs, ∃ t ∈ s :: slots, t.name = f.1 ∧ t.Gives f.2 := fun f hf => by
      obtain ⟨t, ht, h⟩ := ih h f hf
      exact ⟨t, List.mem_cons_of_mem s ht, h⟩
    cases vs with
    | nil =>
      simp only [positional, bind_eq_ok_iff] at h
      obtain ⟨_, -, h⟩ := h
      split at h
      · next x hx =>
        obtain ⟨⟨fs, rest⟩, hfs, h⟩ := bind_eq_ok_iff.1 h
        cases h
        exact List.forall_mem_cons.2
          ⟨⟨s, List.mem_cons_self, rfl, .inr (.inl hx)⟩, htail hfs⟩
      · cases h
    | cons v vs =>
      simp only [positional, bind_eq_ok_iff] at h
      obtain ⟨x, hx, ⟨fs, rest⟩, hfs, h⟩ := h
      cases h
      exact List.forall_mem_cons.2
        ⟨⟨s, List.mem_cons_self, rfl, .inl ⟨_, _, hx⟩⟩, htail hfs⟩

theorem record_eq_ok {name : String} {draft : Draft} {x : Datum}
    (h : record name slots depth draft = .ok x) :
    ∃ fs, x = .record fs ∧ ∀ f ∈ fs, ∃ s ∈ slots, s.name = f.1 ∧ s.Gives f.2 := by
  unfold record at h
  split at h
  · cases h
  · cases h
  · cases h
  · cases h
  · simp only [bind_eq_ok_iff] at h
    obtain ⟨found, hg, fs, hc, h⟩ := h
    cases h
    refine ⟨fs, rfl, fun f hf => ?_⟩
    obtain ⟨s, hs, hn, hm | hm⟩ := complete_eq_ok hc f hf
    · obtain ⟨s, hs, hg⟩ := given_eq_ok hg f hm
      exact ⟨s, List.mem_of_find?_eq_some hs, by simpa using List.find?_some hs, hg⟩
    · exact ⟨s, hs, hn, .inr (.inr hm)⟩
  · simp only [bind_eq_ok_iff] at h
    obtain ⟨⟨fs, rest⟩, hp, _, -, h⟩ := h
    cases h
    exact ⟨fs, rfl, positional_eq_ok hp⟩
  · exact absurd h (wrongKind_ne_ok _ _ _)

end

end Drafter

/-- A shape reads the text of a value as it reads its drafts. -/
theorem Shape.parse_text {s : Shape} {v : Json} {x : Datum}
    (h : s.drafter.Reads Json.depthLimit v x) : s.parse v.text.toList = .ok x := by
  obtain ⟨draft, hr, hd⟩ := v.exists_readText
  rw [Json.text, String.toList_ofList, parse, hr]
  simp only [h draft hd]
  rfl

theorem Shape.parse_eq_ok {s : Shape} {cs : List Char} {x : Datum} (h : s.parse cs = .ok x) :
    ∃ depth draft, s.drafter depth draft = .ok x := by
  simp only [parse, bind_eq_ok_iff] at h
  obtain ⟨y, hy, h⟩ := h
  split at h
  · cases h
  · cases h
    exact ⟨_, _, hy⟩

end RemoteCall
