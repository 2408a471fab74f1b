import Mathlib.Data.List.Forall2
import RemoteCall.Entries

/-! Maps whose entries stand in the order of their keys: putting keeps the order, and a map is built
again from its own entries. -/

namespace RemoteCall.Entries

variable {α : Type}

theorem put_of_lt {es : Entries α} {key : String} (h : ∀ e ∈ es, e.1 < key) (value : α) :
    es.put key value = es ++ [(key, value)] := by
  induction es with
  | nil => rfl
  | cons e es ih =>
    have he : e.1 < key := h e List.mem_cons_self
    have hn : e.1 ≠ key := fun hk => String.lt_irrefl key (hk ▸ he)
    rw [put, if_neg (String.lt_asymm he), if_neg hn,
      ih fun a ha => h a (List.mem_cons_of_mem e ha)]
    rfl

theorem foldl_put {acc es : Entries α} (h : Ordered (acc ++ es)) :
    es.foldl (fun acc e => acc.put e.1 e.2) acc = acc ++ es := by
  induction es generalizing acc with
  | nil => rw [List.append_nil]; rfl
  | cons e es ih =>
    have hlt : ∀ a ∈ acc, a.1 < e.1 := fun a ha =>
      (List.pairwise_append.1 h).2.2 a ha e List.mem_cons_self
    rw [List.foldl_cons, put_of_lt hlt, ih]
    · rw [List.append_assoc]
      rfl
    · rwa [List.append_assoc]

theorem mem_put {es : Entries α} {key : String} {value : α} {e : String × α}
    (h : e ∈ es.put key value) : e = (key, value) ∨ e ∈ es := by
  induction es with
  | nil => exact .inl (List.mem_singleton.1 h)
  | cons f es ih =>
    rw [put] at h
    split at h
    · exact List.mem_cons.1 h
    · split at h
      · exact (List.mem_cons.1 h).imp_right (List.mem_cons_of_mem f)
      · cases List.mem_cons.1 h with
        | inl he => exact .inr (he ▸ List.mem_cons_self)
        | inr hm => exact (ih hm).imp_right (List.mem_cons_of_mem f)

theorem Ordered.put {es : Entries α} (h : Ordered es) (key : String) (value : α) :
    Ordered (es.put key value) := by
  induction es with
  | nil => exact List.pairwise_singleton _ _
  | cons e es ih =>
    obtain ⟨hlt, ho⟩ := List.pairwise_cons.1 h
    rw [Entries.put]
    split
    · next hk =>
      refine List.pairwise_cons.2 ⟨fun a ha => ?_, h⟩
      cases List.mem_cons.1 ha with
      | inl he => exact he ▸ hk
      | inr hm => exact String.lt_trans hk (hlt a hm)
    · next hk =>
      split
      · next he => exact List.pairwise_cons.2 ⟨fun a ha => he ▸ hlt a ha, ho⟩
      · next he =>
        refine List.pairwise_cons.2 ⟨fun a ha => ?_, ih ho⟩
        cases mem_put ha with
        | inl hp => exact hp ▸ Std.lt_of_le_of_ne hk he
        | inr hm => exact hlt a hm

theorem ordered_ofList (es : List (String × α)) : Ordered (ofList es) := by
  suffices h : ∀ acc : Entries α, Ordered acc →
      Ordered (es.foldl (fun acc e => acc.put e.1 e.2) acc) from h [] List.Pairwise.nil
  induction es with
  | nil => exact fun acc h => h
  | cons e es ih => exact fun acc h => ih _ (h.put e.1 e.2)

theorem mem_ofList {es : List (String × α)} {e : String × α} (h : e ∈ ofList es) :
    e ∈ es := by
  suffices hf : ∀ acc : Entries α, e ∈ es.foldl (fun acc e => acc.put e.1 e.2) acc →
      e ∈ acc ∨ e ∈ es from (hf [] h).resolve_left List.not_mem_nil
  clear h
  induction es with
  | nil => exact fun acc h => .inl h
  | cons f es ih =>
    intro acc h
    cases ih _ h with
    | inl hp =>
      cases mem_put hp with
      | inl he => exact .inr (he ▸ List.mem_cons_self)
      | inr hm => exact .inl hm
    | inr hm => exact .inr (List.mem_cons_of_mem f hm)

theorem mem_of_get? {es : Entries α} {key : String} {value : α} (h : es.get? key = some value) :
    (key, value) ∈ es := by
  induction es with
  | nil => cases h
  | cons e es ih =>
    obtain ⟨k, v⟩ := e
    rw [get?] at h
    split at h
    · next hk =>
      cases h
      exact hk ▸ List.mem_cons_self
    · exact List.mem_cons_of_mem _ (ih h)

theorem get?_eq_none_iff {es : Entries α} {key : String} :
    es.get? key = none ↔ ∀ e ∈ es, e.1 ≠ key := by
  induction es with
  | nil => simp
  | cons e es ih =>
    obtain ⟨k, v⟩ := e
    rw [get?, List.forall_mem_cons]
    split
    · next hk => simp [hk]
    · next hk => simp [hk, ih]

/-- Where no two keys are alike, the order of the entries makes no difference. -/
theorem get?_of_nodup {es : Entries α} (h : (es.map Prod.fst).Nodup) {key : String} {value : α}
    (hm : (key, value) ∈ es) : es.get? key = some value := by
  induction es with
  | nil => cases hm
  | cons e es ih =>
    obtain ⟨hne, h⟩ := List.nodup_cons.1 h
    rcases List.mem_cons.1 hm with rfl | hm
    · exact if_pos rfl
    · have hk : e.1 ≠ key := fun he => hne (he ▸ List.mem_map_of_mem hm)
      exact (if_neg hk).trans (ih h hm)

/-- Entries with the same keys, each once, and the same values under them are the same. -/
theorem ext_get? {es fs : Entries α} (hk : es.map Prod.fst = fs.map Prod.fst)
    (hn : (es.map Prod.fst).Nodup) (h : ∀ k ∈ es.map Prod.fst, es.get? k = fs.get? k) :
    es = fs := by
  induction es generalizing fs with
  | nil => exact (List.map_eq_nil_iff.1 hk.symm).symm
  | cons e es ih =>
    obtain _ | ⟨f, fs⟩ := fs
    · cases hk
    · obtain ⟨he, hk⟩ := List.cons.inj hk
      obtain ⟨hne, hn⟩ := List.nodup_cons.1 hn
      obtain ⟨hh, ht⟩ := List.forall_mem_cons.1 h
      rw [get?, get?, if_pos rfl, if_pos he.symm] at hh
      have hef : e = f := Prod.ext he (Option.some.inj hh)
      rw [hef, ih hk hn fun k hm => ?_]
      have hek : e.1 ≠ k := fun hek => hne (hek ▸ hm)
      simpa only [get?, if_neg hek, ← he] using ht k hm

/-- Where no two things have the same name, each is found by its own. -/
theorem find?_of_nodup {name : α → String} {xs : List α} (h : (xs.map name).Nodup) {x : α}
    (hx : x ∈ xs) : (xs.find? fun y => name y = name x) = some x := by
  induction xs with
  | nil => cases hx
  | cons y xs ih =>
    obtain ⟨hy, h⟩ := List.nodup_cons.1 h
    rcases List.mem_cons.1 hx with rfl | hx
    · exact List.find?_cons_of_pos (decide_eq_true rfl)
    · have hne : name y ≠ name x := fun he => hy (he ▸ List.mem_map_of_mem hx)
      rw [List.find?_cons_of_neg (by simpa using hne), ih h hx]

theorem get?_eq_some_iff {es : Entries α} (h : Ordered es) {key : String} {value : α} :
    es.get? key = some value ↔ (key, value) ∈ es := by
  induction es with
  | nil => simp
  | cons e es ih =>
    obtain ⟨k, v⟩ := e
    obtain ⟨hlt, ho⟩ := List.pairwise_cons.1 h
    rw [get?, List.mem_cons]
    split
    · next hk =>
      subst hk
      have hn : (k, value) ∉ es := fun hm => String.lt_irrefl k (hlt (k, value) hm)
      simp [hn, eq_comm]
    · next hk => simp [ih ho, Ne.symm hk]

/-- A value is found among the entries that pass as before, if it passes. -/
theorem get?_filter {es : Entries α} (h : Ordered es) (p : String × α → Bool) (key : String) :
    Entries.get? (es.filter p) key = (es.get? key).filter fun v => p (key, v) := by
  induction es with
  | nil => rfl
  | cons e es ih =>
    obtain ⟨k, v⟩ := e
    obtain ⟨hlt, ho⟩ := List.pairwise_cons.1 h
    rw [get?, List.filter_cons]
    by_cases hk : k = key
    · subst hk
      have hn : Entries.get? (es.filter p) k = none := get?_eq_none_iff.2 fun e he hek =>
        String.lt_irrefl k (hek ▸ hlt e (List.mem_filter.1 he).1)
      cases hp : p (k, v) with
      | true => simp [get?, Option.filter_some, hp]
      | false => simp [hn, Option.filter_some, hp]
    · cases hp : p (k, v) with
      | true => simp [get?, hk, ih ho]
      | false => simp [hk, ih ho]

theorem put_perm {es : Entries α} {key : String} (h : ∀ e ∈ es, e.1 ≠ key) (value : α) :
    (es.put key value).Perm ((key, value) :: es) := by
  induction es with
  | nil => exact .refl _
  | cons e es ih =>
    obtain ⟨hne, h⟩ := List.forall_mem_cons.1 h
    rw [put]
    split
    · exact .refl _
    · exact ((ih h).cons e).trans (.swap _ _ _)

theorem ofList_perm {es : List (String × α)} (h : (es.map Prod.fst).Nodup) :
    (ofList es).Perm es := by
  suffices hf : ∀ acc : Entries α, ((acc ++ es).map Prod.fst).Nodup →
      (es.foldl (fun acc e => acc.put e.1 e.2) acc).Perm (acc ++ es) from hf [] h
  clear h
  induction es with
  | nil => exact fun acc _ => by rw [List.append_nil]; exact .refl _
  | cons e es ih =>
    intro acc h
    have hn : ∀ a ∈ acc, a.1 ≠ e.1 := by
      rw [List.map_append, List.nodup_append] at h
      exact fun a ha => h.2.2 a.1 (List.mem_map_of_mem ha) e.1 List.mem_cons_self
    have hp : (acc.put e.1 e.2 ++ es).Perm (acc ++ e :: es) :=
      ((put_perm hn e.2).append_right es).trans List.perm_middle.symm
    exact (ih _ ((hp.map Prod.fst).nodup_iff.2 h)).trans hp

theorem ordered_of_keys {es : Entries α} (h : (es.map Prod.fst).Pairwise (· < ·)) : Ordered es :=
  List.pairwise_map.1 h

theorem Ordered.nodup {es : Entries α} (h : Ordered es) : (es.map Prod.fst).Nodup :=
  List.pairwise_map.2 (h.imp fun {a b} hlt (he : a.1 = b.1) => String.lt_irrefl b.1 (he ▸ hlt))

/-- A map is built of its own entries in whatever order. -/
theorem ofList_of_perm {es fs : List (String × α)} (h : Ordered es) (hp : fs.Perm es) :
    ofList fs = es :=
  ((ofList_perm ((hp.map Prod.fst).nodup_iff.2 h.nodup)).trans hp).eq_of_pairwise
    (fun _ _ _ _ hlt hgt => absurd hgt (String.lt_asymm hlt)) (ordered_ofList fs) h

theorem Ordered.of_forall₂ {β : Type} {es : Entries α} {fs : Entries β} (h : Ordered es)
    (hk : List.Forall₂ (fun e f => e.1 = f.1) es fs) : Ordered fs := by
  have he : es.map Prod.fst = fs.map Prod.fst := by
    rw [← List.forall₂_eq_eq_eq, List.forall₂_map_left_iff, List.forall₂_map_right_iff]
    exact hk
  exact ordered_of_keys (he ▸ List.pairwise_map.2 h)

theorem ofList_eq_self {es : Entries α} (h : Ordered es) : ofList es = es := foldl_put h

end RemoteCall.Entries
