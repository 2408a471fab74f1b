import RemoteCall.Proofs.Shape.Field

/-!
Fields of a record that may hold any JSON value. Main statement: where the record is read strictly
such a field holds what the value carries for it. Where some other field is in need of leniency, the
entries that hold null are missing from what it holds, at every depth, and nothing else is.
-/

namespace RemoteCall

namespace Json

/-- No entry holds null, at any depth. -/
inductive NullFree : Json → Prop
  | null : NullFree .null
  | bool (b : Bool) : NullFree (.bool b)
  | number (n : Number) : NullFree (.number n)
  | string (s : String) : NullFree (.string s)
  | array {items : List Json} : (∀ v ∈ items, NullFree v) → NullFree (.array items)
  | object {entries : List (String × Json)} :
    (∀ e ∈ entries, e.2 ≠ .null) → (∀ e ∈ entries, NullFree e.2) →
      NullFree (.object entries)

theorem isNull_iff {v : Json} : v.isNull = true ↔ v = .null := by
  cases v <;> simp [isNull]

end Json

namespace Lax

theorem itemsWithoutNulls_eq_map (vs : List Json) : itemsWithoutNulls vs = vs.map withoutNulls := by
  induction vs with
  | nil => rfl
  | cons v vs ih => rw [itemsWithoutNulls, ih, List.map_cons]

theorem entriesWithoutNulls_eq_map (es : List (String × Json)) :
    entriesWithoutNulls es = (present es).map fun e => (e.1, withoutNulls e.2) := by
  induction es with
  | nil => rfl
  | cons e es ih =>
    obtain ⟨k, v⟩ := e
    rw [entriesWithoutNulls, ih, present, present, List.filter_cons]
    cases v <;> rfl

theorem withoutNulls_eq_null_iff {v : Json} : withoutNulls v = .null ↔ v = .null := by
  cases v <;> simp [withoutNulls]

theorem withoutNulls_of_nullFree {v : Json} (h : v.NullFree) : withoutNulls v = v := by
  induction h with
  | null | bool | number | string => rfl
  | array _ ih =>
    rw [withoutNulls, itemsWithoutNulls_eq_map, List.map_congr_left ih, List.map_id']
  | @object entries hn _ ih =>
    have hp : present entries = entries := List.filter_eq_self.2 fun e he => by
      rw [Bool.eq_false_iff.2 fun h => hn e he (Json.isNull_iff.1 h), Bool.not_false]
    have hm : ∀ e ∈ entries, (e.1, withoutNulls e.2) = e := fun e he =>
      Prod.ext rfl (ih e he)
    rw [withoutNulls, entriesWithoutNulls_eq_map, hp, List.map_congr_left hm, List.map_id']

theorem nullFree_withoutNulls (v : Json) : (withoutNulls v).NullFree := by
  induction v using Json.induction with
  | null => exact .null
  | bool b => exact .bool b
  | number n => exact .number n
  | string s => exact .string s
  | array items ih =>
    rw [withoutNulls, itemsWithoutNulls_eq_map]
    exact .array (List.forall_mem_map.2 ih)
  | object entries ih =>
    rw [withoutNulls, entriesWithoutNulls_eq_map]
    refine .object (List.forall_mem_map.2 fun e he => ?_) (List.forall_mem_map.2 fun e he => ?_)
    · intro hn
      have hp := List.of_mem_filter he
      rw [Json.isNull_iff.2 (withoutNulls_eq_null_iff.1 hn)] at hp
      cases hp
    · exact ih e (List.mem_of_mem_filter he)

theorem withoutNulls_eq_self_iff {v : Json} : withoutNulls v = v ↔ v.NullFree :=
  ⟨fun h => h ▸ nullFree_withoutNulls v, withoutNulls_of_nullFree⟩

end Lax

namespace Shape

variable {name : String} {fields : List (Field Shape)} {f : Field Shape} {v : Json} {x : Datum}

/-- A field that may hold any value, in a record that was built. If the record is read strictly then
the field holds what the value carries for it. Otherwise it holds that without the entries that hold
null, and a null itself counts as missing; so the field is as it was carried only if there are no
such entries. -/
theorem build_keeps_opaque_unless_lenient (hd : (fields.map Field.name).Nodup) (hf : f ∈ fields)
    (hc : f.content = .any) (ho : v.Ordered) (h : (record name fields).build v = .typed x) :
    ∃ xs y, x = .record xs ∧ Entries.get? xs f.name = some y ∧
      (carried? fields f.name v = none → f.standIn = some y) ∧
      ∀ w, carried? fields f.name v = some w →
        (∀ z, (record name fields).strict v = .ok z → y = .any w) ∧
        (∀ m, (record name fields).strict v = .error m →
          (w = .null → f.standIn = some y) ∧
            (w ≠ .null → y = .any (Lax.withoutNulls w))) ∧
        (w ≠ .null →
          (y = .any w ↔ (∃ z, (record name fields).strict v = .ok z) ∨ w.NullFree)) := by
  obtain ⟨xs, hx, ⟨hs, hr⟩ | ⟨⟨m, hs⟩, -, hr⟩⟩ := reads_of_build hd ho h
  · obtain ⟨y, hy, hr⟩ := hr f hf
    refine ⟨xs, y, hx, hy, fun hn => ?_, fun w hw => ?_⟩
    · simpa only [hn, Field.readAs_none] using hr
    · simp only [hw, Field.readAs_some, hc] at hr
      cases hr
      refine ⟨fun _ _ => rfl, fun m hm => ?_, fun _ => iff_of_true rfl (.inl ⟨x, hs⟩)⟩
      cases hs.symm.trans hm
  · obtain ⟨y, hy, hr⟩ := hr f hf
    have hfail (z : Datum) (hz : (record name fields).strict v = .ok z) : False := by
      cases hs.symm.trans hz
    refine ⟨xs, y, hx, hy, fun hn => ?_, fun w hw => ?_⟩
    · simpa only [hn, Option.filter_none, Field.readAs_none] using hr
    · by_cases hnull : w = .null
      · subst hnull
        simp only [hw] at hr
        have hy : f.standIn = some y := Field.readAs_none.1 hr
        exact ⟨fun z hz => (hfail z hz).elim, fun _ _ => ⟨fun _ => hy, absurd rfl⟩,
          absurd rfl⟩
      · have hy : y = .any (Lax.withoutNulls w) := by
          simp only [hw, Option.filter_some, Bool.eq_false_iff.2 (mt Json.isNull_iff.1 hnull),
            Bool.not_false, if_true, Field.readAs_some, hc] at hr
          exact (Except.ok.inj hr).symm
        refine ⟨fun z hz => (hfail z hz).elim, fun _ _ => ⟨(absurd · hnull), fun _ => hy⟩,
          fun _ => ?_⟩
        rw [hy, Datum.any.injEq, Lax.withoutNulls_eq_self_iff]
        exact ⟨.inr, fun h => h.resolve_left (not_exists.2 hfail)⟩

def scoredFields : List (Field Shape) := [.required "extra" .any, .required "score" .i64]

/-- A score, and whatever else there is to tell. -/
def scored : Shape := .record "Scored" scoredFields

/-- The entries of a score that is spelled, and so is in need of leniency. -/
def scoredEntries (extra : Json) : Entries Json := [("extra", extra), ("score", .string "1")]

theorem ordered_scoredEntries {extra : Json} (h : extra.Ordered) :
    (Json.object (scoredEntries extra)).Ordered := by
  refine .object (Entries.ordered_of_keys (show ["extra", "score"].Pairwise (· < ·) by decide)) ?_
  simp only [scoredEntries, List.forall_mem_cons]
  exact ⟨h, .string "1", List.forall_mem_nil _⟩

theorem build_keeps_opaque_unless_lenient_scored :
    (scoredFields.map Field.name).Nodup ∧
      (Json.object (scoredEntries (.array [.null]))).Ordered ∧
      scored.build (.object (scoredEntries (.array [.null]))) =
        .typed (.record
          [("extra", .any (.array [.null])), ("score", .integer ⟨1, by decide⟩)]) ∧
      Entries.get? [("extra", .any (.array [.null])), ("score", .integer ⟨1, by decide⟩)]
        "extra" =
        some (Datum.any (.array [.null])) := by
  have hd : (scoredFields.map Field.name).Nodup := by decide
  have ho : (Json.object (scoredEntries (.array [.null]))).Ordered :=
    ordered_scoredEntries (.array (List.forall_mem_singleton.2 .null))
  have hb : scored.build (.object (scoredEntries (.array [.null]))) =
      .typed (.record
        [("extra", .any (.array [.null])), ("score", .integer ⟨1, by decide⟩)]) := by
    with_unfolding_all rfl
  obtain ⟨xs, y, hx, hy, -, hw⟩ := build_keeps_opaque_unless_lenient hd (.head _) rfl ho hb
  have hn : (Json.array [.null]).NullFree := .array (List.forall_mem_singleton.2 .null)
  obtain rfl := ((hw _ rfl).2.2 nofun).2 (.inr hn)
  cases hx
  exact ⟨hd, ho, hb, hy⟩

/-- A score that is spelled costs the other field an entry. -/
theorem build_drops_opaque_null :
    scored.build (.object (scoredEntries (.object [("a", .null)]))) =
        .typed (.record [("extra", .any (.object [])), ("score", .integer ⟨1, by decide⟩)]) ∧
      carried? scoredFields "extra" (.object (scoredEntries (.object [("a", .null)]))) =
        some (.object [("a", .null)]) := by
  constructor <;> with_unfolding_all rfl

end Shape

end RemoteCall
