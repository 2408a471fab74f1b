import RemoteCall.Proofs.Entries
import RemoteCall.Proofs.Shape.Coercion
import RemoteCall.Shape.Built

/-!
Entries that a record does not know. Main statement: a value that gains such entries, wherever the
shape asks for a record, is read as before, strictly as well as leniently.
-/

namespace RemoteCall.Shape

mutual

/-- A value and the same value with more entries in the objects that stand for records. What is
added is named by no field of its record, and may hold anything. -/
inductive Enlarged : Shape → Json → Json → Prop
  | same (s : Shape) (v : Json) : Enlarged s v v
  | option {s : Shape} {v w : Json} : Enlarged s v w → Enlarged (.option s) v w
  | list {s : Shape} {vs ws : List Json} :
    ItemsEnlarged s vs ws → Enlarged (.list s) (.array vs) (.array ws)
  | record (name : String) {fields : List (Field Shape)} {es fs : List (String × Json)} :
    EntriesEnlarged fields es fs → Enlarged (.record name fields) (.object es) (.object fs)
  | elements (name : String) {fields : List (Field Shape)} {vs ws : List Json} :
    ElementsEnlarged fields vs ws → Enlarged (.record name fields) (.array vs) (.array ws)

inductive ItemsEnlarged : Shape → List Json → List Json → Prop
  | nil {s : Shape} : ItemsEnlarged s [] []
  | cons {s : Shape} {v w : Json} {vs ws : List Json} :
    Enlarged s v w → ItemsEnlarged s vs ws → ItemsEnlarged s (v :: vs) (w :: ws)

inductive EntriesEnlarged :
    List (Field Shape) → List (String × Json) → List (String × Json) → Prop
  | nil {fields : List (Field Shape)} : EntriesEnlarged fields [] []
  | added {fields : List (Field Shape)} {k : String} (w : Json) {es fs : List (String × Json)} :
    fieldShape? fields k = none → EntriesEnlarged fields es fs →
    EntriesEnlarged fields es ((k, w) :: fs)
  | unknown {fields : List (Field Shape)} {k : String} (v : Json) {es fs : List (String × Json)} :
    fieldShape? fields k = none → EntriesEnlarged fields es fs →
    EntriesEnlarged fields ((k, v) :: es) ((k, v) :: fs)
  | known {fields : List (Field Shape)} {k : String} {s : Shape} {v w : Json}
      {es fs : List (String × Json)} :
    fieldShape? fields k = some s → Enlarged s v w → EntriesEnlarged fields es fs →
    EntriesEnlarged fields ((k, v) :: es) ((k, w) :: fs)

/-- The elements of an array that stands for a record, each by the field in its place. -/
inductive ElementsEnlarged : List (Field Shape) → List Json → List Json → Prop
  | rest (fields : List (Field Shape)) (vs : List Json) : ElementsEnlarged fields vs vs
  | cons {f : Field Shape} {fields : List (Field Shape)} {v w : Json} {vs ws : List Json} :
    Enlarged f.content v w → ElementsEnlarged fields vs ws →
    ElementsEnlarged (f :: fields) (v :: vs) (w :: ws)

end

variable {s : Shape} {fields : List (Field Shape)} {v w : Json} {vs ws : List Json}
  {es fs : List (String × Json)}

/-- Of two objects the one that has all entries of the other, and besides them only such as no field
names, is an enlargement. -/
theorem EntriesEnlarged.of_subset (he : Entries.Ordered es) (hf : Entries.Ordered fs)
    (hs : ∀ e ∈ es, e ∈ fs) (hn : ∀ e ∈ fs, e ∉ es → fieldShape? fields e.1 = none) :
    EntriesEnlarged fields es fs := by
  induction fs generalizing es with
  | nil =>
    rw [List.eq_nil_iff_forall_not_mem.2 fun e h => List.not_mem_nil (hs e h)]
    exact .nil
  | cons f fs ih =>
    obtain ⟨k, w⟩ := f
    obtain ⟨hlt, hf⟩ := List.pairwise_cons.1 hf
    have hne : ∀ e ∈ fs, e.1 ≠ k := fun e h hk => String.lt_irrefl k (hk ▸ hlt e h)
    by_cases hm : (k, w) ∈ es
    · -- no entry of the smaller object can stand before its first common one
      cases es with
      | nil => cases hm
      | cons e es =>
        obtain ⟨hlt', he'⟩ := List.pairwise_cons.1 he
        obtain rfl : (k, w) = e := by
          rcases List.mem_cons.1 hm with h | h
          · exact h
          · rcases List.mem_cons.1 (hs e List.mem_cons_self) with hk | hk
            · exact hk.symm
            · exact absurd (hlt' _ h) (String.lt_asymm (hlt e hk))
        have hs' : ∀ e ∈ es, e ∈ fs := fun e h =>
          (List.mem_cons.1 (hs e (List.mem_cons_of_mem _ h))).resolve_left fun hk =>
            String.lt_irrefl k (by simpa [hk] using hlt' e h)
        have hn' : ∀ e ∈ fs, e ∉ es → fieldShape? fields e.1 = none := fun e h hes =>
          hn e (List.mem_cons_of_mem _ h) fun hc =>
            (List.mem_cons.1 hc).elim (fun hk => hne e h (by rw [hk])) hes
        cases hp : fieldShape? fields k with
        | none => exact .unknown w hp (ih he' hf hs' hn')
        | some s => exact .known hp (.same s w) (ih he' hf hs' hn')
    · refine .added w (hn _ List.mem_cons_self hm) (ih he hf (fun e h => ?_) fun e h hes => ?_)
      · exact (List.mem_cons.1 (hs e h)).resolve_left fun hk => hm (hk ▸ h)
      · exact hn e (List.mem_cons_of_mem _ h) hes

/-! ### Reading what was enlarged -/

/-- Null stays what it is, and nothing else becomes null. -/
theorem Enlarged.null_iff :
    ∀ {s : Shape} {v w : Json}, Enlarged s v w → (v = .null ↔ w = .null)
  | _, _, _, .same _ _ => .rfl
  | _, _, _, .option h => h.null_iff
  | _, _, _, .list _ => ⟨nofun, nofun⟩
  | _, _, _, .record _ _ => ⟨nofun, nofun⟩
  | _, _, _, .elements _ _ => ⟨nofun, nofun⟩

theorem option_congr {d : Decoder} (hn : v = .null ↔ w = .null) (h : d w = d v) :
    Decoder.option d w = Decoder.option d v := by
  by_cases hv : v = .null
  · rw [hv, hn.1 hv]
  · rw [option_of_ne_null hv, option_of_ne_null (mt hn.2 hv), h]

theorem given_of_unknown {k : String} (hk : fieldShape? fields k = none)
    (read : Shape → Decoder) (v : Json) (es : List (String × Json)) :
    Decoder.given (fields.map (slotOf read)) ((k, v) :: es) =
      Decoder.given (fields.map (slotOf read)) es := by
  rw [Decoder.given, slot?_map, Option.map_eq_none_iff.1 hk]
  rfl

theorem given_of_known {k : String} (hk : fieldShape? fields k = some s) (read : Shape → Decoder)
    (v : Json) (es : List (String × Json)) :
    Decoder.given (fields.map (slotOf read)) ((k, v) :: es) = (do
      let x ← read s v
      let rest ← Decoder.given (fields.map (slotOf read)) es
      return (k, x) :: rest) := by
  obtain ⟨f, hf, rfl⟩ := Option.map_eq_some_iff.1 hk
  rw [Decoder.given, slot?_map, hf]
  rfl

theorem ElementsEnlarged.length_eq : ∀ {fields : List (Field Shape)} {vs ws : List Json},
    ElementsEnlarged fields vs ws → ws.length = vs.length
  | _, _, _, .rest _ _ => rfl
  | _, _, _, .cons _ h => congrArg (· + 1) h.length_eq

mutual

theorem Enlarged.reads {s : Shape} {v w : Json} :
    Enlarged s v w → s.strict w = s.strict v ∧ s.lax w = s.lax v
  | .same _ _ => ⟨rfl, rfl⟩
  | .option h =>
    have ⟨hs, hl⟩ := h.reads
    ⟨option_congr h.null_iff hs, option_congr h.null_iff hl⟩
  | .list h =>
    have ⟨hs, hl⟩ := h.reads
    ⟨congrArg (Except.map Datum.list) hs, congrArg (Except.map Datum.list) hl⟩
  | .record name h => by
    obtain ⟨hs, hl⟩ := h.reads
    constructor
    · rw [strict, strictSlots_eq, Decoder.record, Decoder.record, Decoder.fielded, Decoder.fielded,
        hs]
    · rw [lax, laxSlots_eq, Lax.record, Lax.record, Decoder.fielded, Decoder.fielded, hl]
  | @Enlarged.elements name fields vs ws h => by
    have hs : (record name fields).strict (.array ws) =
      (record name fields).strict (.array vs) := by
      rw [strict, strictSlots_eq, Decoder.record, Decoder.record, h.reads, h.length_eq]
    -- what is no object is read strictly by both readers
    exact ⟨hs, hs⟩

theorem ItemsEnlarged.reads {s : Shape} {vs ws : List Json} : ItemsEnlarged s vs ws →
    Decoder.items s.strict ws = Decoder.items s.strict vs ∧
      Decoder.items s.lax ws = Decoder.items s.lax vs
  | .nil => ⟨rfl, rfl⟩
  | .cons h hs => by
    simp only [Decoder.items, h.reads, hs.reads, and_self]

theorem EntriesEnlarged.reads {fields : List (Field Shape)} {es fs : List (String × Json)} :
    EntriesEnlarged fields es fs →
    Decoder.given (fields.map (slotOf strict)) fs =
      Decoder.given (fields.map (slotOf strict)) es ∧
      Decoder.given (fields.map (slotOf lax)) (Lax.present fs) =
        Decoder.given (fields.map (slotOf lax)) (Lax.present es)
  | .nil => ⟨rfl, rfl⟩
  | @EntriesEnlarged.added _ k w es fs hk h => by
    obtain ⟨hs, hl⟩ := h.reads
    rw [given_of_unknown hk, hs]
    refine ⟨rfl, ?_⟩
    by_cases hw : w = .null
    · subst hw
      exact hl
    · rw [present_cons hw, given_of_unknown hk, hl]
  | @EntriesEnlarged.unknown _ k v es fs hk h => by
    obtain ⟨hs, hl⟩ := h.reads
    rw [given_of_unknown hk, given_of_unknown hk, hs]
    refine ⟨rfl, ?_⟩
    by_cases hv : v = .null
    · subst hv
      exact hl
    · rw [present_cons hv, present_cons hv, given_of_unknown hk, given_of_unknown hk, hl]
  | @EntriesEnlarged.known _ k s v w es fs hk hv h => by
    obtain ⟨hs, hl⟩ := h.reads
    obtain ⟨hvs, hvl⟩ := hv.reads
    rw [given_of_known hk, given_of_known hk, hvs, hs]
    refine ⟨rfl, ?_⟩
    by_cases hn : v = .null
    · have hw := hv.null_iff.1 hn
      subst hn hw
      exact hl
    · rw [present_cons hn, present_cons (mt hv.null_iff.2 hn), given_of_known hk,
        given_of_known hk, hvl, hl]

theorem ElementsEnlarged.reads {fields : List (Field Shape)} {vs ws : List Json} :
    ElementsEnlarged fields vs ws → ∀ (expected : String) (n : Nat),
      Decoder.positional expected n (fields.map (slotOf strict)) ws =
        Decoder.positional expected n (fields.map (slotOf strict)) vs
  | .rest _ _, _, _ => rfl
  | .cons h hs, expected, n => by
    simp only [List.map_cons, Decoder.positional, slotOf, h.reads, hs.reads]

end

/-- A value that gains entries under unknown names is built as before, by the same of the two
readers. -/
theorem build_ignores_additions (h : Enlarged s v w) :
    s.strict w = s.strict v ∧ s.lax w = s.lax v ∧
      ∀ d, s.build v = .typed d → s.build w = .typed d := by
  obtain ⟨hs, hl⟩ := h.reads
  refine ⟨hs, hl, fun d hd => ?_⟩
  rw [build] at hd ⊢
  rw [hs, hl]
  cases hv : s.strict v with
  | ok x =>
    rw [hv] at hd
    exact hd
  | error m =>
    rw [hv] at hd
    dsimp only at hd ⊢
    cases hx : s.lax v with
    | ok x =>
      rw [hx] at hd
      exact hd
    | error m' =>
      rw [hx] at hd
      cases hd

def standings : Shape :=
  .record "Standings"
    [.required "rows"
      (.list (.record "Row" [.required "points" .i64, .required "team" (.option .text)])),
     .required "title" .text]

/-- Standings with one row, whose points are spelled. -/
def finals : Json :=
  .object
    [("rows", .array [.object [("points", .string " 7"), ("team", .null)]]),
     ("title", .string "Finals")]

/-- The same from a later version of the service. -/
def laterFinals : Json :=
  .object
    [("closed", .null),
     ("rows", .array [.object
       [("badges", .array [.object [("points", .bool false)]]), ("points", .string " 7"),
        ("team", .null), ("zone", .string "9")]]),
     ("title", .string "Finals")]

theorem enlarged_finals : Enlarged standings finals laterFinals := by
  refine .record _ (.added _ rfl (.known rfl (.list (.cons (.record _ ?_) .nil))
    (.known rfl (.same _ _) .nil)))
  apply EntriesEnlarged.of_subset
  · exact Entries.ordered_of_keys (show ["points", "team"].Pairwise (· < ·) by decide)
  · exact Entries.ordered_of_keys
      (show ["badges", "points", "team", "zone"].Pairwise (· < ·) by decide)
  · simp
  · simp only [List.forall_mem_cons]
    exact ⟨fun _ => rfl, fun h => absurd (.head _) h, fun h => absurd (.tail _ (.head _)) h,
      fun _ => rfl, List.forall_mem_nil _⟩

theorem build_ignores_additions_finals :
    Enlarged standings finals laterFinals ∧
      standings.build laterFinals = .typed
        (.record
          [("rows", .list [.record [("points", .integer ⟨7, by decide⟩), ("team", .absent)]]),
           ("title", .text "Finals")]) :=
  ⟨enlarged_finals, (build_ignores_additions enlarged_finals).2.2 _ (by with_unfolding_all rfl)⟩

end RemoteCall.Shape
