import RemoteCall.Proofs.Json.Reread
import RemoteCall.Proofs.Shape.Extension

/-!
What a reader yields, read again of its own JSON form. Main statements: if that is so of the parts
of a list or a map then it is so of the whole, since its keys and the order of its entries stay.
-/

namespace RemoteCall

open Outcome (bind_eq_ok_iff map_eq_ok_iff)

namespace Decoder

/-- What the one reader yields, the other yields again of its JSON form. That is null only if the
value was. -/
def Rereads (l d : Decoder) : Prop :=
  ∀ v x, l v = .ok x → d x.toJson = .ok x ∧ (x.toJson = .null → v = .null)

variable {l d : Decoder}

/-! ### Single values -/

theorem Rereads.comp (h : Rereads l d) (hn : ∀ x, l .null ≠ .ok x) (f : Json → Json) :
    Rereads (fun v => l (f v)) d := by
  intro v x hx
  obtain ⟨hr, hz⟩ := h (f v) x hx
  exact ⟨hr, fun h => absurd (hz h ▸ hx) (hn x)⟩

theorem rereads_integer (w : Width) : Rereads (integer w) (integer w) := by
  intro v x hx
  obtain ⟨n, rfl, -, rfl⟩ := integer_eq_ok_iff.1 hx
  exact ⟨hx, fun hn => by cases hn⟩

/-- Every whole number of 64 bits is near to some fraction. -/
theorem exists_fractionOf (n : Json.Number) : ∃ y, fractionOf .double n = some y := by
  cases n with
  | float x => exact ⟨x, rfl⟩
  | integer n =>
    have hn : ((n.val.natAbs : Nat) : ℚ) / (1 : Nat) ≤ 2 ^ 64 := by
      have hb : n.val.natAbs ≤ 2 ^ 64 := by
        have := n.property
        omega
      rw [Nat.cast_one, div_one]
      exact_mod_cast hb
    obtain ⟨y, hy, -⟩ := Numeric.Binary64.exists_ofRatio? Nat.one_pos hn (by norm_num)
      (by linarith [Json.pow_le_lastStep]) (n.val < 0)
    exact ⟨y, hy⟩

theorem rereads_fraction : Rereads (fraction .double) (fraction .double) := by
  intro v x hx
  cases v with
  | number n =>
    obtain ⟨y, hy⟩ := exists_fractionOf n
    rw [fraction, hy] at hx
    cases hx
    exact ⟨rfl, fun hn => by cases hn⟩
  | _ => cases hx

theorem rereads_bool : Rereads bool bool := by
  intro v x hx
  cases v with
  | bool b =>
    cases hx
    exact ⟨rfl, fun hn => by cases hn⟩
  | _ => cases hx

theorem rereads_text : Rereads text text := by
  intro v x hx
  obtain ⟨s, rfl, rfl⟩ := text_eq_ok_iff.1 hx
  exact ⟨rfl, fun hn => by cases hn⟩

theorem rereads_textOr (default : String) : Rereads (textOr default) (textOr default) := by
  have hd : textOr default (.string default) = .ok (.text default) := by
    rw [textOr]
    split
    · rfl
    · rfl
  intro v x hx
  cases v with
  | null =>
    cases hx
    exact ⟨hd, fun hn => by cases hn⟩
  | string s =>
    by_cases hs : s = ""
    · rw [textOr, if_pos hs] at hx
      cases hx
      exact ⟨hd, fun hn => by cases hn⟩
    · have hx' := hx
      rw [textOr, if_neg hs] at hx'
      cases hx'
      exact ⟨hx, fun hn => by cases hn⟩
  | _ => cases hx

theorem rereads_unit : Rereads unit unit := by
  intro v x hx
  cases v with
  | null =>
    cases hx
    exact ⟨rfl, fun _ => rfl⟩
  | _ => cases hx

/-! ### Lists -/

theorem Rereads.option (h : Rereads l d) : Rereads (option l) (option d) := by
  intro v x hx
  by_cases hn : v = .null
  · subst hn
    cases hx
    exact ⟨rfl, fun _ => rfl⟩
  · rw [Shape.option_of_ne_null hn, map_eq_ok_iff] at hx
    obtain ⟨y, hy, rfl⟩ := hx
    obtain ⟨hr, hz⟩ := h v y hy
    refine ⟨?_, hz⟩
    rw [Datum.toJson, Shape.option_of_ne_null (mt hz hn), hr]
    rfl

theorem Rereads.items (h : Rereads l d) {vs : List Json} {xs : List Datum}
    (hx : items l vs = .ok xs) : items d (xs.map Datum.toJson) = .ok xs := by
  induction vs generalizing xs with
  | nil =>
    cases hx
    rfl
  | cons v vs ih =>
    simp only [Decoder.items, bind_eq_ok_iff] at hx
    obtain ⟨x, hx, xs, hxs, he⟩ := hx
    cases he
    rw [List.map_cons, Decoder.items, (h v x hx).1, ih hxs]
    rfl

theorem Rereads.list (h : Rereads l d) : Rereads (list l) (list d) := by
  intro v x hx
  cases v with
  | array vs =>
    obtain ⟨xs, hxs, rfl⟩ := map_eq_ok_iff.1 hx
    rw [Datum.toJson, Datum.itemsJson_eq_map, Decoder.list, h.items hxs]
    exact ⟨rfl, fun hn => by cases hn⟩
  | _ => cases hx

theorem rereads_front {ls ds : List Decoder} (h : List.Forall₂ Rereads ls ds) {total : Nat}
    {vs : List Json} {xs : List Datum} (hx : front total ls vs = .ok xs) :
    xs.length = ds.length ∧ ∀ total', front total' ds (xs.map Datum.toJson) = .ok xs := by
  induction h generalizing vs xs with
  | nil =>
    cases hx
    exact ⟨rfl, fun _ => rfl⟩
  | cons h _ ih =>
    cases vs with
    | nil => cases hx
    | cons v vs =>
      simp only [front, bind_eq_ok_iff] at hx
      obtain ⟨x, hx, xs, hxs, he⟩ := hx
      cases he
      obtain ⟨hl, hr⟩ := ih hxs
      refine ⟨congrArg Nat.succ hl, fun total' => ?_⟩
      rw [List.map_cons, front, (h v x hx).1, hr total']
      rfl

theorem tuple_toJson {ls ds : List Decoder} (h : List.Forall₂ Rereads ls ds) {total : Nat}
    {vs : List Json} {xs : List Datum} (hx : front total ls vs = .ok xs) :
    tuple ds (Datum.list xs).toJson = .ok (.list xs) := by
  obtain ⟨hl, hr⟩ := rereads_front h hx
  rw [Datum.toJson, Datum.itemsJson_eq_map, tuple, hr, List.length_map, hl, bind_eq_ok_iff]
  exact ⟨xs, rfl, by rw [if_neg (lt_irrefl _)]; rfl⟩

theorem tuple_eq_ok {ds : List Decoder} {vs : List Json} {x : Datum}
    (h : tuple ds (.array vs) = .ok x) :
    ∃ xs, front ds.length ds vs = .ok xs ∧ vs.length ≤ ds.length ∧ x = .list xs := by
  simp only [tuple, bind_eq_ok_iff] at h
  obtain ⟨xs, hxs, h⟩ := h
  split at h
  · cases h
  · next hl =>
    cases h
    exact ⟨xs, hxs, Nat.le_of_not_lt hl, rfl⟩

theorem Rereads.tuple {ls ds : List Decoder} (h : List.Forall₂ Rereads ls ds) :
    Rereads (tuple ls) (tuple ds) := by
  intro v x hx
  cases v with
  | array vs =>
    obtain ⟨xs, hxs, -, rfl⟩ := tuple_eq_ok hx
    exact ⟨tuple_toJson h hxs, fun hn => by cases hn⟩
  | _ => cases hx

theorem Rereads.lax_tuple {ls ds : List Decoder} (h : List.Forall₂ Rereads ls ds) :
    Rereads (Lax.tuple ls) (Decoder.tuple ds) := by
  intro v x hx
  cases v with
  | array vs =>
    obtain ⟨xs, hxs, rfl⟩ := map_eq_ok_iff.1 hx
    exact ⟨tuple_toJson h hxs, fun hn => by cases hn⟩
  | _ => cases hx

/-! ### Maps -/

theorem numericKey_text {w : Width} {n : Integer} (h : w.Holds n.val) :
    numericKey w (Json.integer n).text.toList = .ok (Json.integer n).text := by
  obtain ⟨c, cs, hc, hd⟩ : ∃ c cs, Numeric.decimal n.val = c :: cs ∧
      (c = '-' || Numeric.isDigit c) = true := by
    obtain ⟨d, ds, hds, hd⟩ := Numeric.decimalDigits_eq_cons n.val.natAbs
    rw [Numeric.decimal, hds]
    split
    · exact ⟨_, _, rfl, rfl⟩
    · exact ⟨_, _, rfl, by rw [hd, Bool.or_true]⟩
  have ht : (Json.integer n).text.toList = c :: cs := by
    rw [← hc, Json.text, String.toList_ofList]
    rfl
  have hr := Json.readNumber_integer n .nil
  rw [List.append_nil, hc] at hr
  rw [ht, numericKey, if_pos hd, hr]
  simp only [integer, h, if_true, Outcome.mapError_ok, bind_eq_ok_iff]
  exact ⟨_, rfl, rfl⟩

theorem key_of_lax {k : KeyShape} {key name : String} (h : Lax.key k key = .ok name) :
    Decoder.key k name = .ok name := by
  cases k with
  | text =>
    cases h
    rfl
  | integer w =>
    rw [Lax.key] at h
    split at h
    · obtain ⟨x, hx, rfl⟩ := map_eq_ok_iff.1 h
      obtain ⟨n, hn, hw, -⟩ := integer_eq_ok_iff.1 hx
      cases hn
      exact numericKey_text hw
    · next v hv =>
      obtain ⟨x, hx, -⟩ := map_eq_ok_iff.1 h
      obtain ⟨n, hn, -, -⟩ := integer_eq_ok_iff.1 hx
      exact absurd hn (hv _)

theorem lax_entries_eq_ok {k : KeyShape} {es : List (String × Json)} {xs : List (String × Datum)}
    (h : entries k d es = .ok xs) : Lax.entries k d es = .ok xs := by
  induction es generalizing xs with
  | nil => exact h
  | cons e es ih =>
    simp only [entries, bind_eq_ok_iff] at h
    obtain ⟨name, hk, x, hx, xs, hxs, he⟩ := h
    simp only [Lax.entries, bind_eq_ok_iff]
    exact ⟨name, Lax.key_eq_ok hk, x, hx, xs, ih hxs, he⟩

theorem Rereads.entries (h : Rereads l d) {k : KeyShape} {es : List (String × Json)}
    {xs : List (String × Datum)} (hx : Lax.entries k l es = .ok xs) :
    ∀ e ∈ xs, key k e.1 = .ok e.1 ∧ d e.2.toJson = .ok e.2 := by
  induction es generalizing xs with
  | nil =>
    cases hx
    exact List.forall_mem_nil _
  | cons e es ih =>
    simp only [Lax.entries, bind_eq_ok_iff] at hx
    obtain ⟨name, hk, x, hx, xs, hxs, he⟩ := hx
    cases he
    exact List.forall_mem_cons.2 ⟨⟨key_of_lax hk, (h _ _ hx).1⟩, ih hxs⟩

theorem entries_toJson {k : KeyShape} {xs : List (String × Datum)}
    (h : ∀ e ∈ xs, key k e.1 = .ok e.1 ∧ d e.2.toJson = .ok e.2) :
    entries k d (xs.map fun e => (e.1, e.2.toJson)) = .ok xs := by
  induction xs with
  | nil => rfl
  | cons e xs ih =>
    obtain ⟨⟨hk, hx⟩, h⟩ := List.forall_mem_cons.1 h
    rw [List.map_cons, entries, hk, hx, ih h]
    rfl

/-- The entries of a typed map are in order, and each has the normal form of its key. -/
theorem map_toJson {k : KeyShape} {xs : List (String × Datum)}
    (h : ∀ e ∈ xs, key k e.1 = .ok e.1 ∧ d e.2.toJson = .ok e.2) :
    map k d (Datum.map (Entries.ofList xs)).toJson = .ok (.map (Entries.ofList xs)) := by
  have ho := Entries.ordered_ofList xs
  have hj : Entries.Ordered ((Entries.ofList xs).map fun e => (e.1, e.2.toJson)) :=
    List.pairwise_map.2 ho
  rw [Datum.toJson, Datum.entriesJson_eq_map, Json.ofEntries, Entries.ofList_eq_self hj, map,
    entries_toJson fun e he => h e (Entries.mem_ofList he)]
  exact congrArg (fun es => Except.ok (Datum.map es)) (Entries.ofList_eq_self ho)

theorem Rereads.map (h : Rereads l d) (k : KeyShape) : Rereads (map k l) (map k d) := by
  intro v x hx
  cases v with
  | object es =>
    obtain ⟨xs, hxs, rfl⟩ := map_eq_ok_iff.1 hx
    exact ⟨map_toJson (h.entries (lax_entries_eq_ok hxs)), fun hn => by cases hn⟩
  | _ => cases hx

theorem Rereads.lax_map (h : Rereads l d) (k : KeyShape) {otherwise : Decoder}
    (ho : Rereads otherwise (Decoder.map k d)) :
    Rereads (Lax.map k l otherwise) (Decoder.map k d) := by
  intro v x hx
  cases v with
  | object es =>
    obtain ⟨xs, hxs, rfl⟩ := map_eq_ok_iff.1 hx
    exact ⟨map_toJson (h.entries hxs), fun hn => by cases hn⟩
  | _ => exact ho _ x hx

/-! ### Records -/

theorem names_of_complete {given xs : List (String × Datum)} {slots : List Slot}
    (h : complete given slots = .ok xs) : xs.map Prod.fst = slots.map Slot.name := by
  induction slots generalizing xs with
  | nil =>
    cases h
    rfl
  | cons s slots ih =>
    rw [complete_cons] at h
    split at h
    · obtain ⟨rest, hr, rfl⟩ := map_eq_ok_iff.1 h
      exact congrArg (s.name :: ·) (ih hr)
    · cases h

theorem exists_complete {given : List (String × Datum)} {slots : List Slot}
    (h : ∀ s ∈ slots, ∃ x, (Entries.get? given s.name).or s.missing = some x) :
    ∃ xs, complete given slots = .ok xs := by
  induction slots with
  | nil => exact ⟨[], rfl⟩
  | cons s slots ih =>
    obtain ⟨⟨x, hx⟩, h⟩ := List.forall_mem_cons.1 h
    obtain ⟨xs, hxs⟩ := ih h
    exact ⟨(s.name, x) :: xs, by rw [complete_cons, hx, hxs]; rfl⟩

theorem names_of_positional {expected : String} {n : Nat} {slots : List Slot} {vs : List Json}
    {xs : List (String × Datum)} (h : positional expected n slots vs = .ok xs) :
    xs.map Prod.fst = slots.map Slot.name := by
  induction slots generalizing n vs xs with
  | nil =>
    cases h
    rfl
  | cons s slots ih =>
    cases vs with
    | nil =>
      rw [positional] at h
      split at h
      · obtain ⟨rest, hr, he⟩ := bind_eq_ok_iff.1 h
        cases he
        exact congrArg (s.name :: ·) (ih hr)
      · cases h
    | cons v vs =>
      simp only [positional, bind_eq_ok_iff] at h
      obtain ⟨x, -, rest, hr, he⟩ := h
      cases he
      exact congrArg (s.name :: ·) (ih hr)

theorem names_of_fielded {slots : List Slot} {es : Entries Json} {xs : List (String × Datum)}
    (h : fielded slots es = .ok (.record xs)) : xs.map Prod.fst = slots.map Slot.name := by
  simp only [fielded, bind_eq_ok_iff] at h
  obtain ⟨given, -, fields, hc, he⟩ := h
  cases he
  exact names_of_complete hc

theorem names_of_record {name : String} {slots : List Slot} {v : Json}
    {xs : List (String × Datum)} (h : record name slots v = .ok (.record xs)) :
    xs.map Prod.fst = slots.map Slot.name := by
  cases v with
  | object es => exact names_of_fielded h
  | array vs =>
    simp only [record, bind_eq_ok_iff] at h
    obtain ⟨fields, hp, h⟩ := h
    split at h
    · cases h
    · cases h
      exact names_of_positional hp
  | _ => cases h

end Decoder

end RemoteCall
