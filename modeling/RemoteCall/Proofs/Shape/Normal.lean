import RemoteCall.Envelope
import RemoteCall.Payload
import RemoteCall.Proofs.Shape.Opaque
import RemoteCall.Proofs.Shape.Reread

/-!
Typed values as normal forms. Main statement: what was built of a value, strictly or with leniency,
is read strictly of its own JSON form as the same, so building it once more changes nothing.
-/

namespace RemoteCall

open Outcome (bind_eq_ok_iff map_eq_ok_iff)

/-- The shapes that the content of an alternative may have: a list where it is written as a list of
values, and a record where it is written as fields. -/
inductive Style.Suits : Style → Shape → Prop
  | plain (s : Shape) : Suits .plain s
  | single (s : Shape) : Suits .single s
  | listed (ss : List Shape) : Suits .listed (.tuple ss)
  | fielded (name : String) (fields : List (Field Shape)) : Suits .fielded (.record name fields)

/-- What stands for the field where it is missing could have been read for it. -/
def Field.DefaultReadable (f : Field Shape) : Prop :=
  ∀ x, f.default = some x → ∃ v, f.content.strict v = .ok x

namespace Shape

/-- The shapes whose typed values JSON can express: fractions have 64 bits, and the defaults of
fields are something that could have been read for them. -/
inductive Faithful : Shape → Prop
  | any : Faithful .any
  | integer (w : Width) : Faithful (.integer w)
  | fraction : Faithful .f64
  | bool : Faithful .bool
  | text : Faithful .text
  | textOr (default : String) : Faithful (.textOr default)
  | unit : Faithful .unit
  | option {s : Shape} : Faithful s → Faithful (.option s)
  | list {s : Shape} : Faithful s → Faithful (.list s)
  | tuple {ss : List Shape} : (∀ s ∈ ss, Faithful s) → Faithful (.tuple ss)
  | map (k : KeyShape) {s : Shape} : Faithful s → Faithful (.map k s)
  | record (name : String) {fields : List (Field Shape)} :
    (fields.map Field.name).Nodup → (∀ f ∈ fields, Faithful f.content) →
    (∀ f ∈ fields, f.DefaultReadable) → Faithful (.record name fields)
  | choice {alternatives : List (String × Style × Shape)} :
    (∀ a ∈ alternatives, a.2.1.Suits a.2.2) → (∀ a ∈ alternatives, Faithful a.2.2) →
    Faithful (.choice alternatives)

open Decoder (Rereads)

section

variable {name : String} {fields : List (Field Shape)} {xs : List (String × Datum)}

theorem map_name_slotOf (read : Shape → Decoder) (fields : List (Field Shape)) :
    (fields.map (slotOf read)).map Decoder.Slot.name = fields.map Field.name := by
  rw [List.map_map]
  rfl

/-- A record is read of entries in order that give something readable to each of its fields. -/
theorem exists_fielded (read : Shape → Decoder) (hd : (fields.map Field.name).Nodup)
    {es : Entries Json} (ho : Entries.Ordered es)
    (h : ∀ f ∈ fields, ∃ v x, es.get? f.name = some v ∧ read f.content v = .ok x) :
    ∃ xs, Decoder.fielded (fields.map (slotOf read)) es = .ok (.record xs) := by
  obtain ⟨given, hg⟩ : ∃ given, Decoder.given (fields.map (slotOf read)) es = .ok given := by
    apply Decoder.exists_given
    rintro ⟨k, v⟩ he s hs
    rw [slot?_map] at hs
    obtain ⟨f, hf, rfl⟩ := Option.map_eq_some_iff.1 hs
    obtain ⟨w, x, hw, hx⟩ := h f (List.mem_of_find?_eq_some hf)
    have hk : f.name = k := by simpa using List.find?_some hf
    rw [hk, (Entries.get?_eq_some_iff ho).2 he] at hw
    cases hw
    exact ⟨x, hx⟩
  obtain ⟨xs, hxs⟩ : ∃ xs, Decoder.complete given (fields.map (slotOf read)) = .ok xs := by
    apply Decoder.exists_complete
    rintro s hs
    obtain ⟨f, hf, rfl⟩ := List.mem_map.1 hs
    obtain ⟨v, x, hv, -⟩ := h f hf
    have hr := Decoder.rel_given hg (slot?_of_mem hd read hf)
    rw [hv] at hr
    change ∃ x, (Entries.get? given f.name).or _ = some x
    generalize Entries.get? given f.name = z at hr
    cases hr with
    | some _ => exact ⟨_, rfl⟩
  exact ⟨xs, bind_eq_ok_iff.2 ⟨given, hg, bind_eq_ok_iff.2 ⟨xs, hxs, rfl⟩⟩⟩

theorem get?_entriesJson (hn : (xs.map Prod.fst).Nodup) {k : String} {y : Datum}
    (hy : Entries.get? xs k = some y) :
    Entries.get? (Entries.ofList (Datum.entriesJson xs)) k = some y.toJson := by
  have hj : ((xs.map fun e => (e.1, e.2.toJson)).map Prod.fst).Nodup := by
    rw [List.map_map]
    exact hn
  rw [Datum.entriesJson_eq_map, Entries.get?_eq_some_iff (Entries.ordered_ofList _),
    (Entries.ofList_perm hj).mem_iff]
  exact List.mem_map_of_mem (f := fun e : String × Datum => (e.1, e.2.toJson))
    (Entries.mem_of_get? hy)

/-- A record is read of its own entries, if each of its fields is. -/
theorem strict_record_toJson (hd : (fields.map Field.name).Nodup)
    (hk : xs.map Prod.fst = fields.map Field.name)
    (h : ∀ f ∈ fields,
      ∃ y, Entries.get? xs f.name = some y ∧ f.content.strict y.toJson = .ok y) :
    (record name fields).strict (Datum.record xs).toJson = .ok (.record xs) := by
  have hget {f : Field Shape} {y : Datum} (hy : Entries.get? xs f.name = some y) :=
    get?_entriesJson (hk ▸ hd) hy
  obtain ⟨ys, hys⟩ := exists_fielded strict hd (Entries.ordered_ofList _) fun f hf => by
    obtain ⟨y, hy, hs⟩ := h f hf
    exact ⟨_, y, hget hy, hs⟩
  rw [strict, strictSlots_eq, Datum.toJson, Json.ofEntries]
  change Decoder.fielded _ _ = _
  -- The record that is read has the same fields, and the same in each.
  have hyk : ys.map Prod.fst = xs.map Prod.fst :=
    (Decoder.names_of_fielded hys).trans ((map_name_slotOf strict fields).trans hk.symm)
  obtain ⟨_, he, hr⟩ := reads_of_fielded hd hys
  cases he
  rw [hys, Entries.ext_get? hyk (hyk ▸ hk ▸ hd)]
  intro k hm
  rw [hyk, hk] at hm
  obtain ⟨f, hf, rfl⟩ := List.mem_map.1 hm
  obtain ⟨y, hy, hs⟩ := h f hf
  obtain ⟨z, hz, hc⟩ := hr f hf
  rw [hget hy, Field.readAs_some, hs] at hc
  cases hc
  exact hz.trans hy.symm

/-- What stands for a missing field is read again, if that is so of what can be read. -/
theorem strict_standIn_toJson {f : Field Shape} (hs : Rereads f.content.strict f.content.strict)
    (hd : f.DefaultReadable) {x : Datum}
    (h : f.standIn = some x) : f.content.strict x.toJson = .ok x := by
  rw [Field.standIn] at h
  cases hf : f.default with
  | some y =>
    rw [hf] at h
    cases h
    obtain ⟨v, hv⟩ := hd _ hf
    exact (hs v _ hv).1
  | none =>
    rw [hf, Option.none_or] at h
    generalize f.content = s at h
    cases s with
    | option s =>
      cases h
      rfl
    | _ => cases h

theorem Reads.toJson {read : Shape → Decoder} {carried : String → Option Json}
    (hr : Reads read fields carried xs)
    (h : ∀ f ∈ fields, Rereads (read f.content) f.content.strict)
    (hs : ∀ f ∈ fields, Rereads f.content.strict f.content.strict)
    (hd : ∀ f ∈ fields, f.DefaultReadable) :
    ∀ f ∈ fields, ∃ y, Entries.get? xs f.name = some y ∧
      f.content.strict y.toJson = .ok y := by
  intro f hf
  obtain ⟨y, hy, hc⟩ := hr f hf
  refine ⟨y, hy, ?_⟩
  generalize carried f.name = v at hc
  cases hc with
  | given hv => exact (h f hf _ y hv).1
  | missing hm => exact strict_standIn_toJson (hs f hf) (hd f hf) hm

/-- What a record takes from an array it is read of by name, and what it takes from an object with
leniency it is read of strictly. -/
theorem rereads_record (hd : (fields.map Field.name).Nodup)
    (hs : ∀ f ∈ fields, Rereads f.content.strict f.content.strict)
    (hl : ∀ f ∈ fields, Rereads f.content.lax f.content.strict)
    (hf : ∀ f ∈ fields, f.DefaultReadable) :
    Rereads (record name fields).strict (record name fields).strict ∧
      Rereads (record name fields).lax (record name fields).strict := by
  have hstrict : Rereads (record name fields).strict (record name fields).strict := by
    intro v x hx
    obtain ⟨xs, rfl, hr⟩ := reads_of_strict hd hx
    rw [strict, strictSlots_eq] at hx
    have hk := (Decoder.names_of_record hx).trans (map_name_slotOf strict fields)
    exact ⟨strict_record_toJson hd hk (hr.toJson hs hs hf), fun hn => by cases hn⟩
  refine ⟨hstrict, fun v x hx => ?_⟩
  cases v with
  | object es =>
    rw [lax, Lax.record, laxSlots_eq] at hx
    obtain ⟨xs, rfl, hr⟩ := reads_of_fielded hd hx
    have hk := (Decoder.names_of_fielded hx).trans (map_name_slotOf lax fields)
    exact ⟨strict_record_toJson hd hk (hr.toJson hl hs hf), fun hn => by cases hn⟩
  | _ => exact hstrict _ x hx

end

/-! ### Alternatives -/

theorem laxAll_eq (ss : List Shape) : laxAll ss = ss.map lax := by
  induction ss with
  | nil => rfl
  | cons s ss ih => rw [laxAll, ih, List.map_cons]

theorem strictAll_eq (ss : List Shape) : strictAll ss = ss.map strict := by
  induction ss with
  | nil => rfl
  | cons s ss ih => rw [strictAll, ih, List.map_cons]

theorem get?_strictAlternatives (alternatives : List (String × Style × Shape)) (tag : String) :
    Entries.get? (strictAlternatives alternatives) tag =
      (Entries.get? alternatives tag).map fun a => (a.1, a.2.strict) := by
  induction alternatives with
  | nil => rfl
  | cons a alternatives ih =>
    obtain ⟨k, style, s⟩ := a
    rw [strictAlternatives, Entries.get?, Entries.get?, ih]
    split <;> rfl

/-- The content of an alternative is the tag alone, or it is read again. -/
theorem content_toJson {style : Style} {s : Shape} (hs : style.Suits s)
    (hr : Rereads s.strict s.strict) {v : Option Json} {x : Datum}
    (h : Decoder.content style s.strict v = .ok x) :
    style = .plain ∧ x = .unit ∨
      style ≠ .plain ∧ Decoder.content style s.strict (some x.toJson) = .ok x := by
  cases v with
  | none =>
    cases style with
    | plain =>
      cases h
      exact .inl ⟨rfl, rfl⟩
    | _ => cases h
  | some v =>
    cases hs with
    | plain =>
      cases v with
      | null =>
        cases h
        exact .inl ⟨rfl, rfl⟩
      | _ => cases h
    | single => exact .inr ⟨by decide, (hr v x h).1⟩
    | listed ss =>
      refine .inr ⟨by decide, ?_⟩
      obtain _ | _ | _ | _ | (_ | ⟨v, vs⟩) | _ := v
      -- Only a list that is not empty has passed, so what was read of it is none that is empty.
      case array.cons =>
        obtain ⟨xs, hxs, hl, rfl⟩ := Decoder.tuple_eq_ok h
        have hj := (hr _ _ h).1
        obtain _ | ⟨y, ys⟩ := xs
        · rw [strictAll_eq] at hxs hl
          cases ss with
          | nil => cases hl
          | cons s ss =>
            simp only [List.map_cons, Decoder.front, bind_eq_ok_iff] at hxs
            obtain ⟨_, _, _, _, he⟩ := hxs
            cases he
        · exact hj
      all_goals cases h
    | fielded name fields =>
      refine .inr ⟨by decide, ?_⟩
      cases v with
      | object es =>
        have hj := (hr _ _ h).1
        obtain ⟨_, _, h⟩ := bind_eq_ok_iff.1 h
        obtain ⟨xs, _, he⟩ := bind_eq_ok_iff.1 h
        cases he
        exact hj
      | _ => cases h

theorem rereads_choice {alternatives : List (String × Style × Shape)}
    (hs : ∀ a ∈ alternatives, a.2.1.Suits a.2.2)
    (hr : ∀ a ∈ alternatives, Rereads a.2.2.strict a.2.2.strict) :
    Rereads (choice alternatives).strict (choice alternatives).strict := by
  -- Whether the tag stands alone or before its content, what is made of it is read again.
  have halt {tag : String} {v : Option Json} {x : Datum}
      (h : Decoder.alternative (strictAlternatives alternatives) tag v = .ok x) :
      (choice alternatives).strict x.toJson = .ok x ∧ x.toJson ≠ .null := by
    rw [Decoder.alternative, get?_strictAlternatives] at h
    cases ha : Entries.get? alternatives tag with
    | none =>
      rw [ha] at h
      cases h
    | some a =>
      obtain ⟨style, s⟩ := a
      rw [ha] at h
      obtain ⟨c, hc, rfl⟩ := map_eq_ok_iff.1 h
      have hm := Entries.mem_of_get? ha
      have hcontent {w : Option Json} (hw : Decoder.content style s.strict w = .ok c) :
          Decoder.alternative (strictAlternatives alternatives) tag w =
            .ok (.alternative tag style c) := by
        rw [Decoder.alternative, get?_strictAlternatives, ha]
        exact map_eq_ok_iff.2 ⟨c, hw, rfl⟩
      rcases content_toJson (hs _ hm) (hr _ hm) hc with ⟨rfl, rfl⟩ | ⟨hne, hw⟩
      · exact ⟨hcontent rfl, fun hn => by cases hn⟩
      · have hj : (Datum.alternative tag style c).toJson = .object [(tag, c.toJson)] := by
          cases style with
          | plain => exact absurd rfl hne
          | _ => rfl
        rw [hj]
        exact ⟨hcontent hw, fun hn => by cases hn⟩
  intro v x hx
  obtain _ | _ | _ | tag | _ | (_ | ⟨⟨tag, v⟩, _ | ⟨_, _⟩⟩) := v
  case string => exact ⟨(halt hx).1, fun hn => absurd hn (halt hx).2⟩
  case object.cons.nil => exact ⟨(halt hx).1, fun hn => absurd hn (halt hx).2⟩
  all_goals cases hx

/-! ### All shapes -/

theorem forall₂_rereads {read : Shape → Decoder} {ss : List Shape}
    (h : ∀ s ∈ ss, Rereads (read s) s.strict) :
    List.Forall₂ Rereads (ss.map read) (ss.map strict) := by
  rw [List.forall₂_map_left_iff, List.forall₂_map_right_iff, List.forall₂_same]
  exact h

theorem Faithful.rereads {s : Shape} (h : Faithful s) :
    Rereads s.strict s.strict ∧ Rereads s.lax s.strict := by
  induction h with
  | any =>
    refine ⟨fun v x hx => ?_, fun v x hx => ?_⟩
    · cases hx
      exact ⟨rfl, id⟩
    · cases hx
      exact ⟨rfl, Lax.withoutNulls_eq_null_iff.1⟩
  | integer w =>
    exact
      ⟨Decoder.rereads_integer w, (Decoder.rereads_integer w).comp (fun x hx => by cases hx) _⟩
  | fraction =>
    exact ⟨Decoder.rereads_fraction, Decoder.rereads_fraction.comp (fun x hx => by cases hx) _⟩
  | bool => exact ⟨Decoder.rereads_bool, Decoder.rereads_bool.comp (fun x hx => by cases hx) _⟩
  | text => exact ⟨Decoder.rereads_text, Decoder.rereads_text⟩
  | textOr default => exact ⟨Decoder.rereads_textOr default, Decoder.rereads_textOr default⟩
  | unit => exact ⟨Decoder.rereads_unit, Decoder.rereads_unit⟩
  | option _ ih => exact ⟨ih.1.option, ih.2.option⟩
  | list _ ih => exact ⟨ih.1.list, ih.2.list⟩
  | tuple _ ih =>
    rw [strict, lax, strictAll_eq, laxAll_eq]
    exact ⟨.tuple (forall₂_rereads fun s hs => (ih s hs).1),
      .lax_tuple (forall₂_rereads fun s hs => (ih s hs).2)⟩
  | map k _ ih => exact ⟨ih.1.map k, ih.2.lax_map k (ih.1.map k)⟩
  | record name hd _ hf ih =>
    exact rereads_record hd (fun f hm => (ih f hm).1) (fun f hm => (ih f hm).2) hf
  | choice hs _ ih =>
    have hr := rereads_choice hs fun a ha => (ih a ha).1
    exact ⟨hr, hr⟩

theorem read_of_build {s : Shape} {v : Json} {x : Datum} (h : s.build v = .typed x) :
    s.strict v = .ok x ∨ s.lax v = .ok x := by
  rw [build] at h
  split at h
  · next d hd =>
    cases h
    exact .inl hd
  · split at h
    · next d hd =>
      cases h
      exact .inr hd
    · cases h

/-- The payloads that the library knows by itself. -/
def payloads : List Shape :=
  [Login.shape, Credentials.shape, homepageStats, serverTime, Meta.shape, Envelope.shape,
   Descriptor.shape]

theorem faithful_record (name : String) {fields : List (Field Shape)}
    (hd : (fields.map Field.name).Nodup)
    (h : ∀ f ∈ fields, f.content.Faithful ∧ f.DefaultReadable) :
    Faithful (.record name fields) :=
  .record name hd (fun f hf => (h f hf).1) fun f hf => (h f hf).2

theorem faithful_payloads : ∀ s ∈ payloads, Faithful s := by
  have hr {name : String} {s : Shape} (hs : s.Faithful) :
      (Field.required name s).content.Faithful ∧ (Field.required name s).DefaultReadable :=
    ⟨hs, fun x hx => by cases hx⟩
  have ho {name : String} {s : Shape} {x : Datum} (hs : s.Faithful) (v : Json)
      (hv : s.strict v = .ok x) :
      (Field.mk name s (some x)).content.Faithful ∧
        (Field.mk name s (some x)).DefaultReadable := by
    refine ⟨hs, fun y hy => ⟨v, ?_⟩⟩
    cases hy
    exact hv
  have hmeta : Meta.shape.Faithful := by
    apply faithful_record "Meta" (by decide)
    simp only [List.forall_mem_cons]
    exact ⟨hr .text, ho (.option .text) .null rfl, List.forall_mem_nil _⟩
  simp only [payloads, List.forall_mem_cons]
  refine ⟨?_, ?_, ?_, ?_, hmeta, ?_, ?_, List.forall_mem_nil _⟩
  · apply faithful_record "CredentialsIn" (by decide)
    simp only [List.forall_mem_cons]
    exact ⟨hr .text, hr .text, List.forall_mem_nil _⟩
  · apply faithful_record "CredentialsOut" (by decide)
    simp only [List.forall_mem_cons]
    exact ⟨hr .text, ho (.option .text) .null rfl, ho .text (.string "") rfl,
      ho .text (.string "") rfl, List.forall_mem_nil _⟩
  · apply faithful_record "HomepageStats" (by decide)
    simp only [List.forall_mem_cons]
    have hz : u64.strict (.integer ⟨0, by decide⟩) = .ok (.integer ⟨0, by decide⟩) := rfl
    exact ⟨hr (.integer _), hr (.integer _), hr (.integer _), ho (.integer _) _ hz,
      ho (.integer _) _ hz, List.forall_mem_nil _⟩
  · apply faithful_record "Time" (by decide)
    simp only [List.forall_mem_cons]
    exact ⟨hr .text, hr (.integer _), hr .fraction, hr .text, hr .text, List.forall_mem_nil _⟩
  · apply faithful_record "Envelope" (by decide)
    simp only [List.forall_mem_cons]
    exact ⟨hr .text, hr .any, hr (.option hmeta), List.forall_mem_nil _⟩
  · apply faithful_record "ErrorDescriptor" (by decide)
    simp only [List.forall_mem_cons]
    exact ⟨hr .text, ho (.textOr _) .null rfl, List.forall_mem_nil _⟩

/-- What was built of a value is read strictly of its own JSON form as the same, so building it once
more changes nothing. -/
theorem build_toJson {s : Shape} (hs : s ∈ payloads ∨ s.Faithful) {v : Json} {x : Datum}
    (h : s.build v = .typed x) : s.strict x.toJson = .ok x ∧ s.build x.toJson = .typed x := by
  obtain ⟨hstrict, hlax⟩ := (hs.elim (faithful_payloads s) id).rereads
  have hx : s.strict x.toJson = .ok x :=
    (read_of_build h).elim (fun h => (hstrict v x h).1) fun h => (hlax v x h).1
  exact ⟨hx, by rw [build, hx]⟩

/-- Numbers under numbers, and what may be left out. -/
def tally : Shape :=
  .record "Tally"
    [.required "votes" (.map (.integer (.signed 64)) (.option i64)),
     ⟨"note", .textOr "none", some (.text "none")⟩, .required "extra" .any]

/-- A key and a number that are spelled otherwise, a field that is missing, and entries that hold
null. -/
theorem build_toJson_tally :
    tally.build (.object [("extra", .object [("a", .null)]),
        ("votes", .object [("+07", .string "1"), ("8", .null)])]) =
      .typed (.record [("votes", .map [("7", .present (.integer ⟨1, by decide⟩))]),
        ("note", .text "none"), ("extra", .any (.object []))]) ∧
    tally.strict (.object [("extra", .object []), ("note", .string "none"),
        ("votes", .object [("7", .integer ⟨1, by decide⟩)])]) =
      .ok (.record [("votes", .map [("7", .present (.integer ⟨1, by decide⟩))]),
        ("note", .text "none"), ("extra", .any (.object []))]) := by
  have hs : tally.Faithful := by
    apply faithful_record "Tally" (by decide)
    simp only [List.forall_mem_cons]
    refine ⟨⟨.map _ (.option (.integer _)), fun x hx => by cases hx⟩,
      ⟨.textOr _, fun x hx => ⟨.null, ?_⟩⟩,
      ⟨.any, fun x hx => by cases hx⟩, List.forall_mem_nil _⟩
    cases hx
    rfl
  have hb : tally.build (.object [("extra", .object [("a", .null)]),
        ("votes", .object [("+07", .string "1"), ("8", .null)])]) =
      .typed (.record [("votes", .map [("7", .present (.integer ⟨1, by decide⟩))]),
        ("note", .text "none"), ("extra", .any (.object []))]) := by
    with_unfolding_all rfl
  exact ⟨hb, (build_toJson (.inr hs) hb).1⟩

end Shape

end RemoteCall
