import RemoteCall.Proofs.Cache
import RemoteCall.Proofs.Shape.Written

/-!
Texts of caches. Main statement: the text of a cache without fractions, not nested too deep, is read
as that cache, in whatever order it was written down. Whatever is read of a text stands in order.
-/

namespace RemoteCall

/-! ### Attachments and entries -/

theorem Integer.holds_ofByte (b : UInt8) : (Width.unsigned 8).Holds (ofByte b).val :=
  ⟨Int.natCast_nonneg _, Int.ofNat_lt.2 b.toNat_lt⟩

theorem Instant.holds_toInteger (t : Instant) : (Width.signed 64).Holds t.toInteger.val :=
  ⟨t.property.1, Int.lt_add_one_of_le t.property.2⟩

namespace Attachment

theorem toJson_eq (a : Attachment) :
    a.toJson = .object
      [("data", .array (a.data.map fun b => .integer (Integer.ofByte b))), ("name", .string a.name),
       ("type", .string a.type)] := by
  have ho : Entries.Ordered
      [("data", Json.array (a.data.map fun b => .integer (Integer.ofByte b))),
       ("name", .string a.name), ("type", .string a.type)] :=
    Entries.ordered_of_keys (show ["data", "name", "type"].Pairwise (· < ·) by decide)
  have hd : (Datum.list (a.data.map fun b => .integer (Integer.ofByte b))).toJson =
      .array (a.data.map fun b => .integer (Integer.ofByte b)) := by
    rw [Datum.toJson, Datum.itemsJson_eq_map, List.map_map]
    rfl
  rw [toJson, toDatum, Datum.toJson, Datum.entriesJson_eq_map, Json.ofEntries]
  simp only [List.map_cons, List.map_nil, hd]
  exact congrArg Json.object (Entries.ofList_eq_self ho)

theorem reads_toJson (a : Attachment) (depth : Nat) :
    shape.drafter.Reads (depth + 2) a.toJson a.toDatum := by
  rw [toJson_eq]
  refine Drafter.reads_record "Attachment"
    [(⟨"data", _, none, none⟩, .array (a.data.map fun b => .integer (Integer.ofByte b)),
        .list (a.data.map fun b => .integer (Integer.ofByte b))),
     (⟨"name", _, none, none⟩, .string a.name, .text a.name),
     (⟨"type", _, none, none⟩, .string a.type, .text a.type)]
    (show ["data", "name", "type"].Nodup by decide) ?_ (.refl _)
  simp only [List.forall_mem_cons]
  refine ⟨Drafter.reads_list ?_, Drafter.reads_text _ _, Drafter.reads_text _ _,
    List.forall_mem_nil _⟩
  rw [List.forall₂_map_left_iff, List.forall₂_map_right_iff, List.forall₂_same]
  exact fun b _ => Drafter.reads_integer (Integer.holds_ofByte b) _ _

theorem byte?_ofByte (b : UInt8) : byte? (.integer (Integer.ofByte b)) = some b := by
  simp [byte?, Integer.ofByte]

theorem ofDatum?_toDatum (a : Attachment) : ofDatum? a.toDatum = some a := by
  have hb : (a.data.map fun b => Datum.integer (Integer.ofByte b)).mapM byte? = some a.data := by
    rw [Outcome.mapM_eq_some_iff, List.forall₂_map_left_iff, List.forall₂_same]
    exact fun b _ => byte?_ofByte b
  rw [toDatum, ofDatum?, hb]
  rfl

end Attachment

namespace CacheEntry

/-- An object that says what an entry holds, in whatever order. -/
def Writes (e : CacheEntry) (v : Json) : Prop :=
  ∃ fs, v = .object fs ∧ fs.Perm
    [("output", e.output), ("ofiles", .array (e.attachments.map Attachment.toJson)),
     ("epoch", .integer e.epoch.toInteger)]

variable {e : CacheEntry}

theorem writes_toJson (e : CacheEntry) : e.Writes e.toDatum.toJson := by
  refine ⟨[("epoch", .integer e.epoch.toInteger),
    ("ofiles", .array (e.attachments.map Attachment.toJson)), ("output", e.output)], ?_,
    List.reverse_perm [("output", e.output), _, _]⟩
  have hd : (Datum.list (e.attachments.map Attachment.toDatum)).toJson =
      .array (e.attachments.map Attachment.toJson) := by
    rw [Datum.toJson, Datum.itemsJson_eq_map, List.map_map]
    rfl
  rw [toDatum, Datum.toJson, Datum.entriesJson_eq_map, Json.ofEntries]
  simp only [List.map_cons, List.map_nil, hd]
  refine congrArg Json.object (Entries.ofList_of_perm ?_ (List.reverse_perm [_, _, _]))
  exact Entries.ordered_of_keys (show ["epoch", "ofiles", "output"].Pairwise (· < ·) by decide)

/-- The output may be nested as deep as the reader still goes inside of an entry. -/
theorem reads_of_writes {v : Json} (hv : e.Writes v) (hw : e.output.Whole)
    (ho : e.output.Ordered) {depth : Nat} (hn : e.output.depth ≤ depth + 3) :
    shape.drafter.Reads (depth + 4) v e.toDatum := by
  obtain ⟨fs, rfl, hp⟩ := hv
  refine Drafter.reads_record "CacheEntry"
    [(⟨"output", _, none, none⟩, e.output, .any e.output),
     (⟨"ofiles", _, none, none⟩, .array (e.attachments.map Attachment.toJson),
        .list (e.attachments.map Attachment.toDatum)),
     (⟨"epoch", _, none, none⟩, .integer e.epoch.toInteger, .integer e.epoch.toInteger)]
    (show ["output", "ofiles", "epoch"].Nodup by decide) ?_ hp
  simp only [List.forall_mem_cons]
  refine ⟨Drafter.reads_any hw ho hn, Drafter.reads_list ?_, ?_, List.forall_mem_nil _⟩
  · rw [List.forall₂_map_left_iff, List.forall₂_map_right_iff, List.forall₂_same]
    exact fun a _ => a.reads_toJson depth
  · exact Drafter.reads_integer e.epoch.holds_toInteger _ _

theorem ofDatum?_toDatum (e : CacheEntry) : ofDatum? e.toDatum = some e := by
  have ha : (e.attachments.map Attachment.toDatum).mapM Attachment.ofDatum? =
      some e.attachments := by
    rw [Outcome.mapM_eq_some_iff, List.forall₂_map_left_iff, List.forall₂_same]
    exact fun a _ => a.ofDatum?_toDatum
  have he : Instant.clamp e.epoch.toInteger.val = e.epoch := by
    apply Subtype.ext
    have := e.epoch.property
    simp only [Instant.clamp, Instant.toInteger]
    omega
  rw [toDatum, ofDatum?, ha, Option.map_some, he]

theorem ordered_of_read {depth : Nat} {draft : Json.Draft} {x : Datum}
    (h : shape.drafter depth draft = .ok x) (he : ofDatum? x = some e) : e.output.Ordered := by
  obtain ⟨fs, rfl, hfs⟩ := Drafter.record_eq_ok h
  unfold ofDatum? at he
  split at he
  · next output ds n hx =>
    obtain ⟨attachments, -, rfl⟩ := Option.map_eq_some_iff.1 he
    cases hx
    obtain ⟨s, hs, hn, hg⟩ := hfs _ List.mem_cons_self
    rcases List.mem_cons.1 hs with rfl | hs
    · rcases hg with ⟨_, _, hr⟩ | hr | hr
      · exact Drafter.ordered_of_any hr
      · cases hr
      · cases hr
    · rcases List.mem_cons.1 hs with rfl | hs
      · exact absurd hn (show "ofiles" ≠ "output" by decide)
      · rw [List.mem_singleton.1 hs] at hn
        exact absurd hn (show "epoch" ≠ "output" by decide)
  · cases he

end CacheEntry

namespace Cache

/-- A text that says what a cache holds, in whatever order. -/
def Writes (c : Cache) (text : String) : Prop :=
  ∃ xs es, xs.Perm c.entries ∧
    List.Forall₂ (fun (x : String × CacheEntry) (e : String × Json) =>
      e.1 = x.1 ∧ x.2.Writes e.2) xs es ∧
    text = (Json.object es).text

variable {c : Cache} {text : String}

theorem writes_text (ho : Entries.Ordered c.entries) : c.Writes c.text := by
  refine ⟨c.entries, c.entries.map fun x => (x.1, x.2.toDatum.toJson), .refl _, ?_, ?_⟩
  · rw [List.forall₂_map_right_iff, List.forall₂_same]
    exact fun x _ => ⟨rfl, x.2.writes_toJson⟩
  · have ho : Entries.Ordered (c.entries.map fun x => (x.1, x.2.toDatum.toJson)) :=
      List.pairwise_map.2 ho
    rw [Cache.text, toJson, toDatum, Datum.toJson, Datum.entriesJson_eq_map, Json.ofEntries,
      Entries.mapValues, List.map_map]
    exact congrArg (fun es => (Json.object es).text) (Entries.ofList_eq_self ho)

theorem ofDatum?_toDatum (c : Cache) : ofDatum? c.toDatum = some c := by
  have he : (c.entries.mapValues CacheEntry.toDatum).mapM
      (fun e => (CacheEntry.ofDatum? e.2).map fun entry => (e.1, entry)) = some c.entries := by
    rw [Entries.mapValues, Outcome.mapM_eq_some_iff, List.forall₂_map_left_iff,
      List.forall₂_same]
    intro e _
    rw [CacheEntry.ofDatum?_toDatum]
    rfl
  rw [toDatum, ofDatum?, he]
  rfl

/-- The text of a cache is read as the cache that was written. -/
theorem parse_of_writes (ho : c.Ordered) (hw : ∀ e ∈ c.entries, e.2.output.Whole)
    (hn : ∀ e ∈ c.entries, e.2.output.depth ≤ 125) (ht : c.Writes text) :
    parse text.toList = .ok c := by
  obtain ⟨xs, es, hp, hes, rfl⟩ := ht
  have hr : shape.drafter.Reads Json.depthLimit (.object es) c.toDatum := by
    have ho' : Entries.Ordered (c.entries.mapValues CacheEntry.toDatum) :=
      List.pairwise_map.2 ho.entries
    rw [toDatum, ← Entries.ofList_of_perm ho' (hp.map _)]
    apply Drafter.reads_map
    rw [List.forall₂_map_right_iff]
    refine (((List.forall₂_and_left _ _).2 ⟨fun x hx => hp.mem_iff.1 hx, hes⟩).imp ?_).flip
    rintro x e ⟨hx, hk, hv⟩
    exact ⟨hk.symm, CacheEntry.reads_of_writes hv (hw x hx) (ho.outputs x hx) (hn x hx)⟩
  rw [parse, Shape.parse_text hr]
  simp only [bind, Except.bind, ofDatum?_toDatum]
  rfl

/-- What is read of a text stands in order. -/
theorem ordered_of_parse {cs : List Char} (h : parse cs = .ok c) : c.Ordered := by
  simp only [parse, Outcome.bind_eq_ok_iff] at h
  obtain ⟨x, hx, h⟩ := h
  split at h
  · next c' hc =>
    cases h
    obtain ⟨depth, draft, hx⟩ := Shape.parse_eq_ok hx
    obtain ⟨xs, rfl, hxs⟩ := Drafter.map_eq_ok hx
    obtain ⟨es, hes, rfl⟩ := Option.map_eq_some_iff.1 hc
    rw [Outcome.mapM_eq_some_iff] at hes
    have hall : List.Forall₂
        (fun (e : String × CacheEntry) (x : String × Datum) => e.2.output.Ordered ∧ x.1 = e.1)
        es (Entries.ofList xs) := by
      have hr :=
        (List.forall₂_and_left _ _).2 ⟨fun x hx => hxs x (Entries.mem_ofList hx), hes⟩
      refine (hr.imp ?_).flip
      rintro x e ⟨⟨_, _, hr⟩, he⟩
      obtain ⟨entry, hentry, rfl⟩ := Option.map_eq_some_iff.1 he
      exact ⟨CacheEntry.ordered_of_read hr hentry, rfl⟩
    obtain ⟨ho, hk⟩ := (List.forall₂_and_left _ _).1 hall
    exact ⟨(Entries.ordered_ofList xs).of_forall₂ hk.flip, ho⟩
  · cases h

end Cache

end RemoteCall
