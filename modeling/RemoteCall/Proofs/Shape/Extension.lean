import RemoteCall.Proofs.Entries
import RemoteCall.Proofs.Json.Value
import RemoteCall.Proofs.Shape.Key
import RemoteCall.Proofs.Shape.Record

/-!
Lenient reading as an extension of strict reading. Main statement: where it makes no difference
whether an entry holds null or is missing, what is read strictly is read leniently as the same, and
one field of a record that is in need of leniency takes nothing from the others.
-/

namespace RemoteCall

open Outcome (bind_eq_ok_iff)

/-- What stands for a field that no entry gives. -/
def Field.standIn (f : Field Shape) : Option Datum := f.default.or f.content.missing

/-- What a field is read as strictly from the entries of an object. -/
def Field.strict? (f : Field Shape) (es : Entries Json) : Option Datum :=
  match es.get? f.name with
  | some v => (f.content.strict v).toOption
  | none => f.standIn

/-- If the field may be null, then that is what stands for it where no entry gives it. -/
def Field.NullIsMissing (f : Field Shape) : Prop :=
  ∀ x, f.content.strict .null = .ok x → f.standIn = some x

namespace Shape

/-- Shapes of single values, which neither lists nor objects fit. -/
inductive Scalar : Shape → Prop
  | integer (w : Width) : Scalar (.integer w)
  | fraction (p : Precision) : Scalar (.fraction p)
  | bool : Scalar .bool
  | char : Scalar .char
  | text : Scalar .text

/-- Shapes in which a missing entry means the same as one that holds null. In a map it would not, if
its values could be null. Of several shapes without names an earlier one may come to fit as soon as
entries are missing, unless all are those of single values. -/
inductive Steady : Shape → Prop
  | integer (w : Width) : Steady (.integer w)
  | fraction (p : Precision) : Steady (.fraction p)
  | bool : Steady .bool
  | char : Steady .char
  | text : Steady .text
  | textOr (default : String) : Steady (.textOr default)
  | bytes : Steady .bytes
  | unit : Steady .unit
  | option {s : Shape} : Steady s → Steady (.option s)
  | list {s : Shape} : Steady s → Steady (.list s)
  | tuple {ss : List Shape} : (∀ s ∈ ss, Steady s) → Steady (.tuple ss)
  | map (k : KeyShape) {s : Shape} :
    Steady s → (∀ x, s.strict .null ≠ .ok x) → Steady (.map k s)
  | record (name : String) {fields : List (Field Shape)} :
    (fields.map Field.name).Nodup → (∀ f ∈ fields, Steady f.content) →
    (∀ f ∈ fields, f.NullIsMissing) → Steady (.record name fields)
  | choice (alternatives : List (String × Style × Shape)) : Steady (.choice alternatives)
  | oneOf {ss : List Shape} : (∀ s ∈ ss, Scalar s) → Steady (.oneOf ss)

end Shape

/-! ### Lists and maps -/

namespace Decoder

/-- One reader yields whatever another one yields. -/
def Extends (l d : Decoder) : Prop := ∀ v, v.Ordered → ∀ x, d v = .ok x → l v = .ok x

variable {l d : Decoder}

theorem Extends.items (h : Extends l d) {vs : List Json} (hv : ∀ v ∈ vs, v.Ordered)
    {xs : List Datum} (hx : items d vs = .ok xs) : items l vs = .ok xs := by
  induction vs generalizing xs with
  | nil => exact hx
  | cons v vs ih =>
    obtain ⟨hv, hvs⟩ := List.forall_mem_cons.1 hv
    simp only [Decoder.items, bind_eq_ok_iff] at hx ⊢
    obtain ⟨x, hx, xs, hxs, he⟩ := hx
    exact ⟨x, h v hv x hx, xs, ih hvs hxs, he⟩

theorem front_extends {ls ds : List Decoder} (h : List.Forall₂ Extends ls ds) (total : Nat)
    {vs : List Json} (hv : ∀ v ∈ vs, v.Ordered) {xs : List Datum}
    (hx : front total ds vs = .ok xs) : front total ls vs = .ok xs := by
  induction h generalizing vs xs with
  | nil => exact hx
  | cons h _ ih =>
    cases vs with
    | nil => cases hx
    | cons v vs =>
      obtain ⟨hv, hvs⟩ := List.forall_mem_cons.1 hv
      simp only [front, bind_eq_ok_iff] at hx ⊢
      obtain ⟨x, hx, xs, hxs, he⟩ := hx
      exact ⟨x, h v hv x hx, xs, ih hvs hxs, he⟩

/-- Where no value is null, no entry is passed over. -/
theorem Extends.entries (h : Extends l d) (hn : ∀ x, d .null ≠ .ok x) {k : KeyShape}
    {es : List (String × Json)} (he : ∀ e ∈ es, e.2.Ordered) {xs : List (String × Datum)}
    (hx : entries k d es = .ok xs) : Lax.entries k l (Lax.present es) = .ok xs := by
  induction es generalizing xs with
  | nil => exact hx
  | cons e es ih =>
    obtain ⟨key, v⟩ := e
    obtain ⟨hv, hes⟩ := List.forall_mem_cons.1 he
    simp only [Decoder.entries, bind_eq_ok_iff] at hx
    obtain ⟨name, hk, x, hx, xs, hxs, hr⟩ := hx
    have hne : v ≠ .null := by
      rintro rfl
      exact hn x hx
    simp only [Shape.present_cons hne, Lax.entries, bind_eq_ok_iff]
    exact ⟨name, Lax.key_eq_ok hk, x, h v hv x hx, xs, ih hes hxs, hr⟩

/-! ### Records -/

theorem complete_cons (given : List (String × Datum)) (s : Slot) (slots : List Slot) :
    complete given (s :: slots) =
      match (Entries.get? given s.name).or s.missing with
      | some x => (complete given slots).map fun rest => (s.name, x) :: rest
      | none => .error (.missingField s.name) := by
  rw [complete]
  cases Entries.get? given s.name with
  | some x => rfl
  | none => cases s.missing <;> rfl

theorem complete_congr {given given' : List (String × Datum)} {slots : List Slot}
    (h : ∀ s ∈ slots, (Entries.get? given s.name).or s.missing =
      (Entries.get? given' s.name).or s.missing) :
    complete given slots = complete given' slots := by
  induction slots with
  | nil => rfl
  | cons s slots ih =>
    obtain ⟨hs, hr⟩ := List.forall_mem_cons.1 h
    rw [complete_cons, complete_cons, hs, ih hr]

/-- Every field is in the record, under its name. -/
theorem get?_complete {given fields : List (String × Datum)} {slots : List Slot}
    (hd : (slots.map Slot.name).Nodup) (h : complete given slots = .ok fields) {s : Slot}
    (hs : s ∈ slots) :
    ∃ x, (Entries.get? given s.name).or s.missing = some x ∧
      Entries.get? fields s.name = some x := by
  induction slots generalizing fields with
  | nil => cases hs
  | cons t slots ih =>
    obtain ⟨ht, hd⟩ := List.nodup_cons.1 hd
    rw [complete_cons] at h
    split at h
    · next x hx =>
      obtain ⟨rest, hr, rfl⟩ := Outcome.map_eq_ok_iff.1 h
      rcases List.mem_cons.1 hs with rfl | hs
      · exact ⟨x, hx, if_pos rfl⟩
      · have hne : t.name ≠ s.name := fun he => ht (he ▸ List.mem_map_of_mem hs)
        obtain ⟨y, hy, hg⟩ := ih hd hr hs
        exact ⟨y, hy, (if_neg hne).trans hg⟩
    · cases h

end Decoder

namespace Shape

open Decoder (Extends)

section

variable {fields : List (Field Shape)} {es : Entries Json}

theorem slot?_of_mem (hd : (fields.map Field.name).Nodup) (read : Shape → Decoder)
    {f : Field Shape} (hf : f ∈ fields) :
    Decoder.slot? (fields.map (slotOf read)) f.name = some (slotOf read f) := by
  rw [slot?_map, Entries.find?_of_nodup hd hf]
  rfl

/-- What is read strictly of the entries says of every field what it is read as. -/
theorem strict?_of_given (hd : (fields.map Field.name).Nodup) {xs : List (String × Datum)}
    (hx : Decoder.given (fields.map (slotOf strict)) es = .ok xs) {f : Field Shape}
    (hf : f ∈ fields) : (Entries.get? xs f.name).or f.standIn = f.strict? es := by
  have hr := Decoder.rel_given hx (slot?_of_mem hd strict hf)
  rw [Field.strict?]
  generalize Entries.get? xs f.name = x at hr
  generalize Entries.get? es f.name = v at hr
  cases hr with
  | none => rfl
  | @some v x hv =>
    have hv : f.content.strict v = .ok x := hv
    simp only [hv]
    rfl

/-- What is read leniently of the entries says the same of a field that could be read strictly. -/
theorem strict?_of_given_present (hd : (fields.map Field.name).Nodup) (ho : Entries.Ordered es)
    (hes : ∀ e ∈ es, e.2.Ordered) {ys : List (String × Datum)}
    (hy : Decoder.given (fields.map (slotOf lax)) (Lax.present es) = .ok ys) {f : Field Shape}
    (hf : f ∈ fields) (he : Extends f.content.lax f.content.strict) (hn : f.NullIsMissing)
    {x : Datum} (hx : f.strict? es = some x) :
    (Entries.get? ys f.name).or f.standIn = some x := by
  have hr := Decoder.rel_given hy (slot?_of_mem hd lax hf)
  rw [Lax.present, Entries.get?_filter ho] at hr
  rw [Field.strict?] at hx
  generalize Entries.get? ys f.name = y at hr ⊢
  cases hv : es.get? f.name with
  | none =>
    rw [hv] at hr hx
    cases hr
    exact hx
  | some v =>
    rw [hv] at hr hx
    have hs : f.content.strict v = .ok x := Outcome.toOption_eq_some_iff.1 hx
    by_cases hnull : v = .null
    · subst hnull
      cases hr
      exact hn x hs
    · rw [Option.filter_some, if_pos (by cases v <;> first | rfl | exact absurd rfl hnull)] at hr
      cases hr with
      | some hy =>
        cases (he v (hes _ (Entries.mem_of_get? hv)) x hs).symm.trans hy
        rfl

/-- Every entry that stays is read leniently if all are read strictly. -/
theorem exists_given_present (hd : (fields.map Field.name).Nodup) (ho : Entries.Ordered es)
    (hes : ∀ e ∈ es, e.2.Ordered)
    (he : ∀ f ∈ fields, Extends f.content.lax f.content.strict) {xs : List (String × Datum)}
    (hx : Decoder.given (fields.map (slotOf strict)) es = .ok xs) :
    ∃ ys, Decoder.given (fields.map (slotOf lax)) (Lax.present es) = .ok ys := by
  apply Decoder.exists_given
  rintro ⟨k, v⟩ hv s hs
  have hv := List.mem_of_mem_filter hv
  rw [slot?_map] at hs
  obtain ⟨f, hf, rfl⟩ := Option.map_eq_some_iff.1 hs
  have hk : f.name = k := by simpa using List.find?_some hf
  have hm : f ∈ fields := List.mem_of_find?_eq_some hf
  have hr := Decoder.rel_given hx (slot?_of_mem hd strict hm)
  rw [hk, (Entries.get?_eq_some_iff ho).2 hv] at hr
  generalize Entries.get? xs k = x at hr
  cases hr with
  | some hr => exact ⟨_, he f hm v (hes _ hv) _ hr⟩

theorem fielded_extends (hd : (fields.map Field.name).Nodup) (ho : Entries.Ordered es)
    (hes : ∀ e ∈ es, e.2.Ordered)
    (he : ∀ f ∈ fields, Extends f.content.lax f.content.strict)
    (hn : ∀ f ∈ fields, f.NullIsMissing) {x : Datum}
    (hx : Decoder.fielded (fields.map (slotOf strict)) es = .ok x) :
    Decoder.fielded (fields.map (slotOf lax)) (Lax.present es) = .ok x := by
  simp only [Decoder.fielded, bind_eq_ok_iff] at hx ⊢
  obtain ⟨xs, hg, fs, hc, hr⟩ := hx
  obtain ⟨ys, hy⟩ := exists_given_present hd ho hes he hg
  refine ⟨ys, hy, fs, ?_, hr⟩
  rw [← hc, complete_map ys lax strict]
  apply Decoder.complete_congr
  intro s hs
  obtain ⟨f, hf, rfl⟩ := List.mem_map.1 hs
  obtain ⟨y, hsy, -⟩ := Decoder.get?_complete (by rw [List.map_map]; exact hd) hc hs
  have hst : f.strict? es = some y := (strict?_of_given hd hg hf).symm.trans hsy
  exact (strict?_of_given_present hd ho hes hy hf (he f hf) (hn f hf) hst).trans hsy.symm

end

/-! ### All shapes -/

theorem Scalar.refuses {s : Shape} (h : Scalar s) {v : Json} {x : Datum}
    (hx : s.strict v = .ok x) : Lax.withoutNulls v = v := by
  cases v with
  | array vs => cases h <;> cases hx
  | object es => cases h <;> cases hx
  | _ => rfl

theorem exists_of_oneOf {ss : List Shape} {v : Json} {x : Datum}
    (h : Decoder.oneOf (strictAll ss) v = .ok x) : ∃ s ∈ ss, s.strict v = .ok x := by
  induction ss with
  | nil => cases h
  | cons s ss ih =>
    rw [strictAll, Decoder.oneOf] at h
    split at h
    · next y hy =>
      cases h
      exact ⟨s, List.mem_cons_self, hy⟩
    · obtain ⟨t, ht, hx⟩ := ih h
      exact ⟨t, List.mem_cons_of_mem s ht, hx⟩

theorem forall₂_all {ss : List Shape} (h : ∀ s ∈ ss, Extends s.lax s.strict) :
    List.Forall₂ Extends (laxAll ss) (strictAll ss) := by
  induction ss with
  | nil => exact .nil
  | cons s ss ih =>
    obtain ⟨hs, hss⟩ := List.forall_mem_cons.1 h
    exact .cons hs (ih hss)

theorem Steady.extends {s : Shape} (h : Steady s) : Extends s.lax s.strict := by
  induction h with
  | integer w =>
    intro v _ x hx
    obtain ⟨n, rfl, -, -⟩ := Decoder.integer_eq_ok_iff.1 hx
    exact hx
  | fraction p =>
    intro v _ x hx
    cases v with
    | number n => exact hx
    | _ => cases hx
  | bool =>
    intro v _ x hx
    cases v with
    | bool b => exact hx
    | _ => cases hx
  | char | text | textOr | bytes | unit | choice => exact fun _ _ _ hx => hx
  | option _ ih =>
    intro v ho x hx
    by_cases hn : v = .null
    · subst hn
      exact hx
    · rw [strict, option_of_ne_null hn, Outcome.map_eq_ok_iff] at hx
      rw [lax, option_of_ne_null hn, Outcome.map_eq_ok_iff]
      obtain ⟨y, hy, he⟩ := hx
      exact ⟨y, ih v ho y hy, he⟩
  | list _ ih =>
    intro v ho x hx
    cases v with
    | array vs =>
      obtain ⟨xs, hxs, he⟩ := Outcome.map_eq_ok_iff.1 hx
      exact Outcome.map_eq_ok_iff.2 ⟨xs, ih.items (Json.ordered_array.1 ho) hxs, he⟩
    | _ => cases hx
  | @tuple ss _ ih =>
    intro v ho x hx
    cases v with
    | array vs =>
      simp only [strict, Decoder.tuple, bind_eq_ok_iff] at hx
      obtain ⟨xs, hxs, hx⟩ := hx
      split at hx
      · cases hx
      · have hl : (laxAll ss).length = (strictAll ss).length := (forall₂_all ih).length_eq
        refine Outcome.map_eq_ok_iff.2 ⟨xs, ?_, Except.ok.inj hx⟩
        rw [hl]
        exact Decoder.front_extends (forall₂_all ih) _ (Json.ordered_array.1 ho) hxs
    | _ => cases hx
  | map k _ hn ih =>
    intro v ho x hx
    cases v with
    | object es =>
      obtain ⟨xs, hxs, he⟩ := Outcome.map_eq_ok_iff.1 hx
      exact Outcome.map_eq_ok_iff.2 ⟨xs, ih.entries hn (Json.ordered_object.1 ho).2 hxs, he⟩
    | _ => cases hx
  | record name hd _ hn ih =>
    intro v ho x hx
    cases v with
    | object es =>
      obtain ⟨ho, hes⟩ := Json.ordered_object.1 ho
      rw [strict, Decoder.record, strictSlots_eq] at hx
      rw [lax, Lax.record, laxSlots_eq]
      exact fielded_extends hd ho hes ih hn hx
    | _ => exact hx
  | oneOf hs =>
    intro v _ x hx
    obtain ⟨s, hm, hv⟩ := exists_of_oneOf hx
    change Decoder.oneOf _ (Lax.withoutNulls v) = .ok x
    rw [(hs s hm).refuses hv]
    exact hx

/-- Each field of a record that could be read strictly is read so, even if others could not. -/
theorem get?_of_fielded {fields : List (Field Shape)} {es : Entries Json}
    (hd : (fields.map Field.name).Nodup) (ho : Entries.Ordered es) (hes : ∀ e ∈ es, e.2.Ordered)
    {xs : List (String × Datum)}
    (hx : Decoder.fielded (fields.map (slotOf lax)) (Lax.present es) = .ok (.record xs))
    {f : Field Shape} (hf : f ∈ fields) (he : Extends f.content.lax f.content.strict)
    (hn : f.NullIsMissing) {x : Datum} (hs : f.strict? es = some x) :
    Entries.get? xs f.name = some x := by
  simp only [Decoder.fielded, bind_eq_ok_iff] at hx
  obtain ⟨ys, hy, fs, hc, hr⟩ := hx
  cases hr
  obtain ⟨y, hsy, hg⟩ := Decoder.get?_complete (by rw [List.map_map]; exact hd) hc
    (List.mem_map_of_mem hf)
  have hst := strict?_of_given_present hd ho hes hy hf he hn hs
  cases hst.symm.trans hsy
  exact hg

/-- What is read strictly is read leniently as the same. In a record that is read leniently each
field that could be read strictly by itself is read so. -/
theorem lax_extends_strict {s : Shape} (hs : s.Steady) {v : Json} (hv : v.Ordered) :
    (∀ x, s.strict v = .ok x → s.lax v = .ok x) ∧
      ∀ name fields es xs, s = .record name fields → v = .object es →
        s.lax v = .ok (.record xs) →
        ∀ f ∈ fields, ∀ x, f.strict? es = some x → Entries.get? xs f.name = some x := by
  refine ⟨hs.extends v hv, ?_⟩
  rintro name fields es xs rfl rfl hx f hf x hst
  cases hs with
  | record _ hd hc hn =>
    obtain ⟨ho, hes⟩ := Json.ordered_object.1 hv
    rw [lax, Lax.record, laxSlots_eq] at hx
    exact get?_of_fielded hd ho hes hx hf (hc f hf).extends (hn f hf) hst

/-- Scores of a problem by number, with the place of the problem and a state. -/
def sheet : Shape :=
  .record "Sheet"
    [.required "by_id" (.map (.integer (.unsigned 32)) (.list .f64)),
     .required "note" (.option .text), .required "place" (.tuple [.i64, .bool]),
     .required "score" (.integer (.unsigned 8)),
     .required "state" (.choice [("Accepted", .plain, .unit), ("Score", .single, .i64)])]

theorem steady_sheet : sheet.Steady := by
  apply Steady.record
  · decide
  · simp only [List.forall_mem_cons]
    refine ⟨.map _ (.list (.fraction _)) nofun, .option .text, .tuple ?_, .integer _, .choice _,
      List.forall_mem_nil _⟩
    simp only [List.forall_mem_cons]
    exact ⟨.integer _, .bool, List.forall_mem_nil _⟩
  · simp only [List.forall_mem_cons]
    refine ⟨nofun, ?_, nofun, nofun, nofun, List.forall_mem_nil _⟩
    intro x hx
    cases hx
    rfl

/-- The entries of a sheet, whatever its score is written as. -/
def sheetEntries (score : Json) : Entries Json :=
  [("by_id", .object [("1", .array [.float ⟨false, ⟨4602678819172646912, by decide⟩⟩]),
    ("7", .array [])]), ("note", .null),
   ("place", .array [.integer ⟨1, by decide⟩, .bool true]),
   ("score", score), ("state", .object [("Score", .integer ⟨5, by decide⟩)])]

def sheetFields : List (String × Datum) :=
  [("by_id",
    .map [("1", .list [.fraction (some ⟨false, ⟨4602678819172646912, by decide⟩⟩)]),
    ("7", .list [])]), ("note", .absent),
   ("place", .list [.integer ⟨1, by decide⟩, .bool true]),
   ("score", .integer ⟨10, by decide⟩),
   ("state", .alternative "Score" .single (.integer ⟨5, by decide⟩))]

theorem ordered_sheetEntries {score : Json} (h : score.Ordered) :
    (Json.object (sheetEntries score)).Ordered := by
  have hs : Entries.Ordered (sheetEntries score) := Entries.ordered_of_keys
    (show ["by_id", "note", "place", "score", "state"].Pairwise (· < ·) by decide)
  refine .object hs ?_
  simp only [sheetEntries, List.forall_mem_cons]
  refine ⟨?_, .null, ?_, h, ?_, List.forall_mem_nil _⟩
  · exact .object (Entries.ordered_of_keys (show ["1", "7"].Pairwise (· < ·) by decide))
      (by simp [Json.float])
  · simp [Json.integer]
  · simp [Json.integer, Entries.Ordered]

theorem lax_extends_strict_sheet :
    sheet.Steady ∧ (Json.object (sheetEntries (.integer ⟨10, by decide⟩))).Ordered ∧
      sheet.strict (.object (sheetEntries (.integer ⟨10, by decide⟩))) =
        .ok (.record sheetFields) ∧
      sheet.lax (.object (sheetEntries (.integer ⟨10, by decide⟩))) =
        .ok (.record sheetFields) ∧
      sheet.lax (.object (sheetEntries (.string " 10"))) = .ok (.record sheetFields) ∧
      Entries.get? sheetFields "note" = some .absent := by
  have hs : sheet.strict (.object (sheetEntries (.integer ⟨10, by decide⟩))) =
      .ok (.record sheetFields) := by with_unfolding_all rfl
  have hl : sheet.lax (.object (sheetEntries (.string " 10"))) = .ok (.record sheetFields) := by
    with_unfolding_all rfl
  have ho := ordered_sheetEntries (.number (.integer ⟨10, by decide⟩))
  refine ⟨steady_sheet, ho, hs, (lax_extends_strict steady_sheet ho).1 _ hs, hl, ?_⟩
  exact (lax_extends_strict steady_sheet (ordered_sheetEntries (.string " 10"))).2 _ _ _ _ rfl rfl
    hl (.required "note" (.option .text)) (.tail _ (.head _)) .absent rfl

end Shape

end RemoteCall
