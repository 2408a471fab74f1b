import RemoteCall.Proofs.Numeric.Fraction
import RemoteCall.Shape.Lax

/-!
Lenient reading as strict reading of a value rewritten beforehand. What is rewritten is directed by
the shape alone and said without the reader. Main statement: for the shapes of plain data there is
exactly one such value, and reading it strictly is reading the given one leniently.
-/

namespace RemoteCall

/-! ### Single values -/

/-- A value that stands for a whole number: a text that spells it between blanks, or a fraction
below `9e15` that has it as exact value. -/
inductive DenotesInteger : Json → Integer → Prop
  | text {s : String} {cs : List Char} {n : Integer} :
    Text.Framed s.toList cs → Numeric.Spells cs n.val → DenotesInteger (.string s) n
  | fraction {x : Numeric.Binary64} {n : Integer} :
    x.IsWhole n.val → n.val.natAbs < 9000000000000000 → DenotesInteger (.number (.float x)) n

/-- A text that spells a decimal fraction between blanks stands for the nearest number of 64 bits.
Past the largest one there is none. -/
inductive DenotesFraction : Json → Numeric.Binary64 → Prop
  | text {s : String} {cs : List Char} {q : ℚ} {x : Numeric.Binary64} :
    Text.Framed s.toList cs → Numeric.SpellsFraction cs x.negative q →
    Numeric.Format.double.Nearest q x.place → DenotesFraction (.string s) x

/-- The word for a truth value between blanks. -/
inductive DenotesBool : Json → Bool → Prop
  | yes {s : String} : Text.Framed s.toList "true".toList → DenotesBool (.string s) true
  | no {s : String} : Text.Framed s.toList "false".toList → DenotesBool (.string s) false

/-- What stands for something is replaced by it, and anything else stays as it is. -/
inductive Replaced {α : Type} (Denotes : Json → α → Prop) (make : α → Json) (v : Json) :
    Json → Prop
  | denoted {a : α} : Denotes v a → Replaced Denotes make v (make a)
  | other : (∀ a, ¬ Denotes v a) → Replaced Denotes make v v

theorem replaced_iff {α : Type} {Denotes : Json → α → Prop} {make : α → Json} {v w : Json}
    {read : Json → Option α} (h : ∀ a, read v = some a ↔ Denotes v a) :
    Replaced Denotes make v w ↔ w = ((read v).map make).getD v := by
  cases hr : read v with
  | none =>
    have hn : ∀ a, ¬ Denotes v a := fun a ha => by
      cases hr.symm.trans ((h a).2 ha)
    constructor
    · rintro (ha | -)
      · exact absurd ha (hn _)
      · rfl
    · rintro rfl
      exact .other hn
  | some a =>
    have ha : Denotes v a := (h a).1 hr
    constructor
    · rintro (@⟨b, hb⟩ | hn)
      · cases hr.symm.trans ((h b).2 hb)
        rfl
      · exact absurd ha (hn a)
    · rintro rfl
      exact .denoted ha

theorem Replaced.ne_null {α : Type} {Denotes : Json → α → Prop} {make : α → Json}
    {v u : Json} (h : Replaced Denotes make v u) (hm : ∀ a, make a ≠ .null)
    (hn : v ≠ .null) : u ≠ .null := by
  cases h with
  | denoted _ => exact hm _
  | other _ => exact hn

namespace Lax

theorem ofInt?_eq_some_iff {n : Int} {k : Integer} : Integer.ofInt? n = some k ↔ k.val = n := by
  rw [Integer.ofInt?]
  constructor
  · intro h
    split at h
    · cases h
      rfl
    · cases h
  · rintro rfl
    rw [dif_pos k.property]

theorem integer?_eq_some_iff {v : Json} {n : Integer} :
    integer? v = some n ↔ DenotesInteger v n := by
  constructor
  · intro h
    unfold integer? at h
    split at h
    · obtain ⟨k, hk, hn⟩ := Option.bind_eq_some_iff.1 h
      rw [Numeric.intOfDigits?_eq_some_iff, ← ofInt?_eq_some_iff.1 hn] at hk
      exact .text ((Text.framed_iff_trim hk.not_blank).2 rfl) hk
    · obtain ⟨k, hk, hn⟩ := Option.bind_eq_some_iff.1 h
      split at hn
      · next hlt =>
        rw [Numeric.Binary64.toInt?_eq_some_iff] at hk
        rw [← ofInt?_eq_some_iff.1 hn] at hk hlt
        exact .fraction hk hlt
      · cases hn
    · cases h
  · intro h
    cases h with
    | text hf h =>
      rw [integer?, (Text.framed_iff_trim h.not_blank).1 hf, Numeric.intOfDigits?_eq_some_iff.2 h]
      exact ofInt?_eq_some_iff.2 rfl
    | fraction h hlt =>
      simp only [integer?, Numeric.Binary64.toInt?_eq_some_iff.2 h, Option.bind_eq_bind,
        Option.bind_some, hlt, if_true]
      exact ofInt?_eq_some_iff.2 rfl

theorem fraction?_eq_some_iff {v : Json} {x : Numeric.Binary64} :
    fraction? v = some x ↔ DenotesFraction v x := by
  constructor
  · intro h
    unfold fraction? at h
    split at h
    · obtain ⟨q, hs, hn⟩ := Numeric.Binary64.ofText?_eq_some_iff.1 h
      exact .text ((Text.framed_iff_trim hs.not_blank).2 rfl) hs hn
    · cases h
  · intro h
    cases h with
    | text hf hs hn =>
      rw [fraction?, (Text.framed_iff_trim hs.not_blank).1 hf]
      exact Numeric.Binary64.ofText?_eq_some_iff.2 ⟨_, hs, hn⟩

theorem bool?_eq_some_iff {v : Json} {b : Bool} : bool? v = some b ↔ DenotesBool v b := by
  have hyes : ∀ c ∈ "true".toList, Text.isBlank c = false := by simp [Text.isBlank]
  have hno : ∀ c ∈ "false".toList, Text.isBlank c = false := by simp [Text.isBlank]
  constructor
  · intro h
    unfold bool? at h
    split at h
    · dsimp only at h
      split at h
      · next ht =>
        cases h
        exact .yes ((Text.framed_iff_trim hyes).2 ht)
      · split at h
        · next hf =>
          cases h
          exact .no ((Text.framed_iff_trim hno).2 hf)
        · cases h
    · cases h
  · intro h
    have hne : "false".toList ≠ "true".toList := by decide
    cases h with
    | yes h => simp only [bool?, (Text.framed_iff_trim hyes).1 h, if_true]
    | no h => simp only [bool?, (Text.framed_iff_trim hno).1 h, hne, if_true, if_false]

end Lax

namespace Shape

/-! ### Values of a shape -/

/-- The shapes of plain data. The keys of their maps are texts, and their fractions have 64 bits. -/
inductive Plain : Shape → Prop
  | integer (w : Width) : Plain (.integer w)
  | fraction : Plain .f64
  | bool : Plain .bool
  | text : Plain .text
  | option {s : Shape} : Plain s → Plain (.option s)
  | list {s : Shape} : Plain s → Plain (.list s)
  | map {s : Shape} : Plain s → Plain (.map .text s)
  | record (name : String) {fields : List (Field Shape)} :
    (∀ f ∈ fields, Plain f.content) → Plain (.record name fields)

def fieldShape? (fields : List (Field Shape)) (name : String) : Option Shape :=
  (fields.find? fun f => f.name = name).map Field.content

mutual

/-- A value and what it is rewritten to where a shape asks for it. -/
inductive Coerces : Shape → Json → Json → Prop
  | integer {w : Width} {v u : Json} :
    Replaced DenotesInteger Json.integer v u → Coerces (.integer w) v u
  | fraction {v u : Json} : Replaced DenotesFraction Json.float v u → Coerces .f64 v u
  | bool {v u : Json} : Replaced DenotesBool Json.bool v u → Coerces .bool v u
  | text (v : Json) : Coerces .text v v
  | null (s : Shape) : Coerces (.option s) .null .null
  | present {s : Shape} {v u : Json} : v ≠ .null → Coerces s v u → Coerces (.option s) v u
  | list {s : Shape} {vs us : List Json} :
    ItemsCoerce s vs us → Coerces (.list s) (.array vs) (.array us)
  | noList {s : Shape} {v : Json} : (∀ vs, v ≠ .array vs) → Coerces (.list s) v v
  | map {s : Shape} {es fs : List (String × Json)} :
    EntriesCoerce (fun _ => some s) es fs → Coerces (.map .text s) (.object es) (.object fs)
  | noMap {s : Shape} {v : Json} : (∀ es, v ≠ .object es) → Coerces (.map .text s) v v
  | record {name : String} {fields : List (Field Shape)} {es fs : List (String × Json)} :
    EntriesCoerce (fieldShape? fields) es fs →
    Coerces (.record name fields) (.object es) (.object fs)
  | noRecord {name : String} {fields : List (Field Shape)} {v : Json} :
    (∀ es, v ≠ .object es) → Coerces (.record name fields) v v

inductive ItemsCoerce : Shape → List Json → List Json → Prop
  | nil {s : Shape} : ItemsCoerce s [] []
  | cons {s : Shape} {v u : Json} {vs us : List Json} :
    Coerces s v u → ItemsCoerce s vs us → ItemsCoerce s (v :: vs) (u :: us)

/-- Entries that hold null are gone. The others are rewritten by the shape that belongs to their
key, where there is one. -/
inductive EntriesCoerce :
    (String → Option Shape) → List (String × Json) → List (String × Json) → Prop
  | nil {p : String → Option Shape} : EntriesCoerce p [] []
  | null {p : String → Option Shape} (k : String) {es fs : List (String × Json)} :
    EntriesCoerce p es fs → EntriesCoerce p ((k, .null) :: es) fs
  | known {p : String → Option Shape} {k : String} {s : Shape} {v u : Json}
      {es fs : List (String × Json)} :
    v ≠ .null → p k = some s → Coerces s v u → EntriesCoerce p es fs →
    EntriesCoerce p ((k, v) :: es) ((k, u) :: fs)
  | unknown {p : String → Option Shape} {k : String} {v : Json} {es fs : List (String × Json)} :
    v ≠ .null → p k = none → EntriesCoerce p es fs →
    EntriesCoerce p ((k, v) :: es) ((k, v) :: fs)

end

/-! ### One rewriting -/

mutual

theorem Coerces.unique {s : Shape} {v u u' : Json} : Coerces s v u → Coerces s v u' → u = u'
  | .integer h, h' => by
    cases h' with
    | integer h' =>
      exact ((replaced_iff fun _ => Lax.integer?_eq_some_iff).1 h).trans
        ((replaced_iff fun _ => Lax.integer?_eq_some_iff).1 h').symm
  | .fraction h, h' => by
    cases h' with
    | fraction h' =>
      exact ((replaced_iff fun _ => Lax.fraction?_eq_some_iff).1 h).trans
        ((replaced_iff fun _ => Lax.fraction?_eq_some_iff).1 h').symm
  | .bool h, h' => by
    cases h' with
    | bool h' =>
      exact ((replaced_iff fun _ => Lax.bool?_eq_some_iff).1 h).trans
        ((replaced_iff fun _ => Lax.bool?_eq_some_iff).1 h').symm
  | .text _, h' => by
    cases h'
    rfl
  | .null _, h' => by
    cases h' with
    | null => rfl
    | present hn _ => exact absurd rfl hn
  | .present hn h, h' => by
    cases h' with
    | null => exact absurd rfl hn
    | present _ h' => exact h.unique h'
  | .list h, h' => by
    cases h' with
    | list h' => rw [h.unique h']
    | noList hn => exact absurd rfl (hn _)
  | .noList hn, h' => by
    cases h' with
    | list _ => exact absurd rfl (hn _)
    | noList _ => rfl
  | .map h, h' => by
    cases h' with
    | map h' => rw [h.unique h']
    | noMap hn => exact absurd rfl (hn _)
  | .noMap hn, h' => by
    cases h' with
    | map _ => exact absurd rfl (hn _)
    | noMap _ => rfl
  | .record h, h' => by
    cases h' with
    | record h' => rw [h.unique h']
    | noRecord hn => exact absurd rfl (hn _)
  | .noRecord hn, h' => by
    cases h' with
    | record _ => exact absurd rfl (hn _)
    | noRecord _ => rfl

theorem ItemsCoerce.unique {s : Shape} {vs us us' : List Json} :
    ItemsCoerce s vs us → ItemsCoerce s vs us' → us = us'
  | .nil, .nil => rfl
  | .cons h hs, .cons h' hs' => by rw [h.unique h', hs.unique hs']

theorem EntriesCoerce.unique {p : String → Option Shape} {es fs fs' : List (String × Json)} :
    EntriesCoerce p es fs → EntriesCoerce p es fs' → fs = fs'
  | .nil, .nil => rfl
  | .null _ h, h' => by
    cases h' with
    | null _ h' => exact h.unique h'
    | known hn _ _ _ => exact absurd rfl hn
    | unknown hn _ _ => exact absurd rfl hn
  | .known hn hp h hs, h' => by
    cases h' with
    | null _ _ => exact absurd rfl hn
    | known _ hp' h' hs' =>
      cases hp.symm.trans hp'
      rw [h.unique h', hs.unique hs']
    | unknown _ hp' _ => cases hp.symm.trans hp'
  | .unknown hn hp hs, h' => by
    cases h' with
    | null _ _ => exact absurd rfl hn
    | known _ hp' _ _ => cases hp.symm.trans hp'
    | unknown _ _ hs' => rw [hs.unique hs']

end

/-! ### Reading what was rewritten -/

/-- What is read leniently is some rewriting of it, read strictly. -/
def ReadsCoerced (s : Shape) : Prop := ∀ v, ∃ u, Coerces s v u ∧ s.lax v = s.strict u

/-- The slot of a field whose content is read in the given way. -/
def slotOf (read : Shape → Decoder) (f : Field Shape) : Decoder.Slot :=
  ⟨f.name, read f.content, f.default, f.default.or f.content.missing⟩

theorem laxSlots_eq (fields : List (Field Shape)) : laxSlots fields = fields.map (slotOf lax) := by
  induction fields with
  | nil => rfl
  | cons f fields ih => rw [laxSlots, ih]; rfl

theorem strictSlots_eq (fields : List (Field Shape)) :
    strictSlots fields = fields.map (slotOf strict) := by
  induction fields with
  | nil => rfl
  | cons f fields ih => rw [strictSlots, ih]; rfl

theorem slot?_map (read : Shape → Decoder) (fields : List (Field Shape)) (name : String) :
    Decoder.slot? (fields.map (slotOf read)) name =
      (fields.find? fun f => f.name = name).map (slotOf read) := by
  rw [Decoder.slot?, List.find?_map]
  rfl

/-- What stands for the missing fields does not depend on how the others are read. -/
theorem complete_map (given : List (String × Datum)) (read read' : Shape → Decoder)
    (fields : List (Field Shape)) :
    Decoder.complete given (fields.map (slotOf read)) =
      Decoder.complete given (fields.map (slotOf read')) := by
  induction fields with
  | nil => rfl
  | cons f fields ih =>
    rw [List.map_cons, List.map_cons, Decoder.complete, Decoder.complete, ih]
    rfl

theorem Coerces.ne_null :
    ∀ {s : Shape} {v u : Json}, Coerces s v u → v ≠ .null → u ≠ .null
  | _, _, _, .integer h, hn => h.ne_null (by simp [Json.integer]) hn
  | _, _, _, .fraction h, hn => h.ne_null (by simp [Json.float]) hn
  | _, _, _, .bool h, hn => h.ne_null (by simp) hn
  | _, _, _, .present _ h, hn => h.ne_null hn
  | _, _, _, .text _, hn => hn
  | _, _, _, .null _, hn => hn
  | _, _, _, .list _, _ => nofun
  | _, _, _, .noList _, hn => hn
  | _, _, _, .map _, _ => nofun
  | _, _, _, .noMap _, hn => hn
  | _, _, _, .record _, _ => nofun
  | _, _, _, .noRecord _, hn => hn

theorem option_of_ne_null {v : Json} (h : v ≠ .null) (d : Decoder) :
    Decoder.option d v = (d v).map .present := by
  cases v with
  | null => exact absurd rfl h
  | _ => rfl

theorem reads_items {s : Shape} (h : ReadsCoerced s) (vs : List Json) :
    ∃ us, ItemsCoerce s vs us ∧ Decoder.items s.lax vs = Decoder.items s.strict us := by
  induction vs with
  | nil => exact ⟨[], .nil, rfl⟩
  | cons v vs ih =>
    obtain ⟨u, hu, hv⟩ := h v
    obtain ⟨us, hus, hvs⟩ := ih
    exact ⟨u :: us, .cons hu hus, by rw [Decoder.items, Decoder.items, hv, hvs]⟩

theorem present_cons {v : Json} (h : v ≠ .null) (k : String) (es : List (String × Json)) :
    Lax.present ((k, v) :: es) = (k, v) :: Lax.present es := by
  cases v with
  | null => exact absurd rfl h
  | _ => rfl

theorem reads_entries {s : Shape} (h : ReadsCoerced s) (es : List (String × Json)) :
    ∃ fs, EntriesCoerce (fun _ => some s) es fs ∧
      Lax.entries .text s.lax (Lax.present es) = Decoder.entries .text s.strict fs := by
  induction es with
  | nil => exact ⟨[], .nil, rfl⟩
  | cons e es ih =>
    obtain ⟨k, v⟩ := e
    obtain ⟨fs, hfs, hes⟩ := ih
    by_cases hn : v = .null
    · subst hn
      exact ⟨fs, .null k hfs, hes⟩
    · obtain ⟨u, hu, hv⟩ := h v
      refine ⟨(k, u) :: fs, .known hn rfl hu hfs, ?_⟩
      rw [present_cons hn, Lax.entries, Decoder.entries, hv, hes]
      rfl

theorem reads_given {fields : List (Field Shape)} (h : ∀ f ∈ fields, ReadsCoerced f.content)
    (es : List (String × Json)) :
    ∃ fs, EntriesCoerce (fieldShape? fields) es fs ∧
      Decoder.given (fields.map (slotOf lax)) (Lax.present es) =
        Decoder.given (fields.map (slotOf strict)) fs := by
  induction es with
  | nil => exact ⟨[], .nil, rfl⟩
  | cons e es ih =>
    obtain ⟨k, v⟩ := e
    obtain ⟨fs, hfs, hes⟩ := ih
    by_cases hn : v = .null
    · subst hn
      exact ⟨fs, .null k hfs, hes⟩
    · cases hf : fields.find? fun f => f.name = k with
      | none =>
        refine ⟨(k, v) :: fs, .unknown hn (by rw [fieldShape?, hf]; rfl) hfs, ?_⟩
        rw [present_cons hn, Decoder.given, Decoder.given, slot?_map, slot?_map, hf]
        exact hes
      | some f =>
        obtain ⟨u, hu, hv⟩ := h f (List.mem_of_find?_eq_some hf) v
        refine ⟨(k, u) :: fs, .known hn (by rw [fieldShape?, hf]; rfl) hu hfs, ?_⟩
        rw [present_cons hn, Decoder.given, Decoder.given, slot?_map, slot?_map, hf]
        simp only [Option.map_some, slotOf, hv, hes]

theorem Plain.readsCoerced {s : Shape} (h : Plain s) : ReadsCoerced s := by
  induction h with
  | integer w =>
    exact fun v => ⟨_, .integer ((replaced_iff fun _ => Lax.integer?_eq_some_iff).2 rfl), rfl⟩
  | fraction =>
    exact fun v => ⟨_, .fraction ((replaced_iff fun _ => Lax.fraction?_eq_some_iff).2 rfl), rfl⟩
  | bool => exact fun v => ⟨_, .bool ((replaced_iff fun _ => Lax.bool?_eq_some_iff).2 rfl), rfl⟩
  | text => exact fun v => ⟨v, .text v, rfl⟩
  | @option s _ ih =>
    intro v
    by_cases hn : v = .null
    · subst hn
      exact ⟨.null, .null s, rfl⟩
    · obtain ⟨u, hu, hv⟩ := ih v
      refine ⟨u, .present hn hu, ?_⟩
      rw [lax, strict, option_of_ne_null hn, option_of_ne_null (hu.ne_null hn), hv]
  | list _ ih =>
    intro v
    cases v with
    | array vs =>
      obtain ⟨us, hus, hvs⟩ := reads_items ih vs
      exact ⟨.array us, .list hus, by rw [lax, strict, Decoder.list, Decoder.list, hvs]⟩
    | _ => exact ⟨_, .noList fun _ h => (by cases h), rfl⟩
  | map _ ih =>
    intro v
    cases v with
    | object es =>
      obtain ⟨fs, hfs, hes⟩ := reads_entries ih es
      exact ⟨.object fs, .map hfs, by rw [lax, strict, Lax.map, Decoder.map, hes]⟩
    | _ => exact ⟨_, .noMap fun _ h => (by cases h), rfl⟩
  | record name _ ih =>
    intro v
    cases v with
    | object es =>
      obtain ⟨fs, hfs, hes⟩ := reads_given ih es
      refine ⟨.object fs, .record hfs, ?_⟩
      rw [lax, strict, Lax.record, Decoder.record, Decoder.fielded, Decoder.fielded, laxSlots_eq,
        strictSlots_eq, hes]
      simp only [complete_map _ lax strict]
    | _ => exact ⟨_, .noRecord fun _ h => (by cases h), rfl⟩

/-- A value of plain data is rewritten in one way only, and reading it leniently is reading what it
is rewritten to strictly, also where that fails. -/
theorem lax_reads_coerced {s : Shape} (h : s.Plain) (v : Json) :
    ∃ u, Coerces s v u ∧ (∀ u', Coerces s v u' → u' = u) ∧ s.lax v = s.strict u := by
  obtain ⟨u, hu, hv⟩ := h.readsCoerced v
  exact ⟨u, hu, fun _ hu' => hu'.unique hu, hv⟩

def report : Shape :=
  .record "Report"
    [.required "problem_id" .text, .required "scores" (.map .text (.list .i64)),
     .required "weight" .f64, .required "accepted" .bool, ⟨"note", .option .text, some .absent⟩]

theorem plain_report : report.Plain := by
  apply Plain.record
  simp only [List.forall_mem_cons]
  exact ⟨.text, .map (.list (.integer _)), .fraction, .bool, .option .text,
    List.forall_mem_nil _⟩

/-- A report that spells its numbers in several ways. -/
def reported : Json :=
  .object
    [("accepted", .string " true"), ("note", .null), ("problem_id", .string "68688"),
     ("scores", .object
       [("a", .array [.string "+5 ", .float ⟨false, ⟨4621819117588971520, by decide⟩⟩]),
        ("b", .null)]),
     ("weight", .string "\t-1.5e1 ")]

theorem lax_reads_coerced_report :
    report.Plain ∧
      (∃ u, Coerces report reported u ∧ (∀ u', Coerces report reported u' → u' = u) ∧
        report.lax reported = report.strict u) ∧
      report.lax reported = .ok
        (.record
          [("problem_id", .text "68688"),
           ("scores",
             .map [("a", .list [.integer ⟨5, by decide⟩, .integer ⟨10, by decide⟩])]),
           ("weight", .fraction (some ⟨true, ⟨4624633867356078080, by decide⟩⟩)),
           ("accepted", .bool true), ("note", .absent)]) :=
  ⟨plain_report, lax_reads_coerced plain_report reported, by with_unfolding_all rfl⟩

end Shape

end RemoteCall
