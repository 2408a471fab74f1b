import RemoteCall.Failure
import RemoteCall.Proofs.Entries
import RemoteCall.Proofs.Json.Value
import RemoteCall.Proofs.Shape.Record

/-!
The failures that a server declares: which values describe one, and what becomes of it. Its kind
hangs on the name alone.
-/

namespace RemoteCall.Descriptor

open Decoder (Slot)
open Outcome (bind_eq_ok_iff)

/-- What a descriptor tells, given what stands in the place of its message. -/
inductive Tells : Option Json → String → Prop
  | missing : Tells none "Unknown error"
  | null : Tells (some .null) "Unknown error"
  | empty : Tells (some (.string "")) "Unknown error"
  | given {s : String} : s ≠ "" → Tells (some (.string s)) s

/-- A value that describes a failure: an object with its name, and with its message if it has one,
or an array of the two. -/
inductive Describes : Json → Descriptor → Prop
  | object {entries : Entries Json} {name message : String} :
    Entries.get? entries "name" = some (.string name) →
    Tells (Entries.get? entries "message") message →
      Describes (.object entries) ⟨name, message⟩
  | single (name : String) : Describes (.array [.string name]) ⟨name, "Unknown error"⟩
  | pair {v : Json} {message : String} (name : String) :
    Tells (some v) message → Describes (.array [.string name, v]) ⟨name, message⟩

/-- The failure that becomes of a descriptor. -/
inductive Becomes (d : Descriptor) : Failure → Prop
  | unauthorized : d.name = "UnauthorizedError" → Becomes d (.unauthorized d.message)
  | info : d.name = "InfoError" → Becomes d (.info d.message)
  | notFound : d.name = "NotFoundError" → Becomes d (.notFound d.message)
  | input : d.name = "InputError" → Becomes d (.input d.message)
  | unknown :
    d.name ∉ ["UnauthorizedError", "InfoError", "NotFoundError", "InputError"] →
    Becomes d (.unknown ("server reported '" ++ d.name ++ "'"))

theorem becomes_failure (d : Descriptor) : d.Becomes d.failure := by
  rw [failure]
  split
  · next h => exact .unauthorized h
  split
  · next h => exact .info h
  split
  · next h => exact .notFound h
  split
  · next h => exact .input h
  · next hu hi hn hp => exact .unknown (by simp [hu, hi, hn, hp])

theorem Becomes.ne_protocol {d : Descriptor} {f : Failure} (h : d.Becomes f) (b : Breach) :
    f ≠ .protocol b := by
  rintro rfl
  cases h

/-! ### Reading descriptors -/

theorem textOr_eq_ok_iff {v : Json} {x : Datum} :
    Decoder.textOr defaultMessage v = .ok x ↔ ∃ m, Tells (some v) m ∧ x = .text m := by
  constructor
  · intro h
    cases v with
    | null =>
      cases h
      exact ⟨_, .null, rfl⟩
    | string s =>
      cases h
      split
      · next he => exact ⟨_, he ▸ .empty, rfl⟩
      · next hn => exact ⟨_, .given hn, rfl⟩
    | _ => cases h
  · rintro ⟨m, h, rfl⟩
    cases h with
    | null => rfl
    | empty => rfl
    | given hn => simp [Decoder.textOr, hn]

def nameSlot : Slot := ⟨"name", Decoder.text, none, none⟩

def messageSlot : Slot :=
  ⟨"message", Decoder.textOr defaultMessage, some (.text defaultMessage),
    some (.text defaultMessage)⟩

theorem strict_eq_record :
    shape.strict = Decoder.record "ErrorDescriptor" [nameSlot, messageSlot] :=
  rfl

theorem slot?_eq_some {k : String} {s : Slot}
    (h : Decoder.slot? [nameSlot, messageSlot] k = some s) :
    k = "name" ∧ s = nameSlot ∨ k = "message" ∧ s = messageSlot := by
  by_cases hn : k = "name"
  · subst hn
    cases h
    exact .inl ⟨rfl, rfl⟩
  · by_cases hm : k = "message"
    · subst hm
      cases h
      exact .inr ⟨rfl, rfl⟩
    · simp [Decoder.slot?, nameSlot, messageSlot, Ne.symm hn, Ne.symm hm] at h

theorem complete_eq_ok_iff {xs fields : List (String × Datum)} :
    Decoder.complete xs [nameSlot, messageSlot] = .ok fields ↔
      ∃ x, Entries.get? xs "name" = some x ∧
        fields = [("name", x),
          ("message", (Entries.get? xs "message").getD (.text defaultMessage))] := by
  simp only [Decoder.complete, nameSlot, messageSlot]
  cases Entries.get? xs "name" with
  | none => simp [bind, Except.bind, throw, throwThe, MonadExceptOf.throw]
  | some x =>
    cases Entries.get? xs "message" <;>
      simp [bind, Except.bind, pure, Except.pure, eq_comm]

/-- The message that an entry gives, if there is one, and what is read of it. -/
theorem tells_of_rel {given : Option Json} {read : Option Datum}
    (h : Option.Rel (fun v x => Decoder.textOr defaultMessage v = .ok x) given read) :
    ∃ m, Tells given m ∧ read.getD (.text defaultMessage) = .text m := by
  cases h with
  | none => exact ⟨_, .missing, rfl⟩
  | some h => exact textOr_eq_ok_iff.1 h

theorem Tells.exists_textOr {v : Json} {m : String} (h : Tells (some v) m) :
    ∃ x, Decoder.textOr defaultMessage v = .ok x :=
  ⟨_, textOr_eq_ok_iff.2 ⟨m, h, rfl⟩⟩

theorem Tells.unique {given : Option Json} {m m' : String} (h : Tells given m)
    (k : Tells given m') : m = m' := by
  cases h with
  | missing => cases k; rfl
  | null => cases k; rfl
  | empty =>
    cases k with
    | empty => rfl
    | given hn => exact absurd rfl hn
  | given hn =>
    cases k with
    | empty => exact absurd rfl hn
    | given => rfl

theorem exists_given_of_describes {entries : Entries Json} (ho : Entries.Ordered entries)
    {d : Descriptor} (h : Describes (.object entries) d) :
    ∃ xs, Decoder.given [nameSlot, messageSlot] entries = .ok xs := by
  cases h with
  | object hn hm =>
    apply Decoder.exists_given
    rintro ⟨k, v⟩ he s hs
    have hv := (Entries.get?_eq_some_iff ho).2 he
    rcases slot?_eq_some hs with ⟨rfl, rfl⟩ | ⟨rfl, rfl⟩
    · cases hn.symm.trans hv
      exact ⟨_, rfl⟩
    · rw [hv] at hm
      exact hm.exists_textOr

theorem fielded_eq_ok_iff {entries : Entries Json} (ho : Entries.Ordered entries) {x : Datum} :
    Decoder.fielded [nameSlot, messageSlot] entries = .ok x ↔
      ∃ d, Describes (.object entries) d ∧ x = d.toDatum := by
  -- What is read under the two names, whatever else the object holds.
  have hread : ∀ xs, Decoder.given [nameSlot, messageSlot] entries = .ok xs →
      Option.Rel (fun v x => Decoder.text v = .ok x) (Entries.get? entries "name")
        (Entries.get? xs "name") ∧
      ∃ m, Tells (Entries.get? entries "message") m ∧
        (Entries.get? xs "message").getD (.text defaultMessage) = .text m := fun xs hg =>
    ⟨Decoder.rel_given (s := nameSlot) hg rfl,
      tells_of_rel (Decoder.rel_given (s := messageSlot) hg rfl)⟩
  simp only [Decoder.fielded, bind_eq_ok_iff, complete_eq_ok_iff]
  constructor
  · rintro ⟨xs, hg, fields, ⟨y, hy, rfl⟩, he⟩
    cases he
    obtain ⟨hr, m, ht, hm⟩ := hread xs hg
    rw [hy] at hr
    cases hv : Entries.get? entries "name" with
    | none =>
      rw [hv] at hr
      cases hr
    | some v =>
      rw [hv] at hr
      cases hr with
      | some hr =>
        obtain ⟨name, rfl, rfl⟩ := Decoder.text_eq_ok_iff.1 hr
        exact ⟨⟨name, m⟩, .object hv ht, by rw [hm]; rfl⟩
  · rintro ⟨d, h, rfl⟩
    obtain ⟨xs, hg⟩ := exists_given_of_describes ho h
    obtain ⟨hr, m, ht, hm⟩ := hread xs hg
    cases h with
    | object hn hd =>
      rw [hn] at hr
      cases hx : Entries.get? xs "name" with
      | none =>
        rw [hx] at hr
        cases hr
      | some y =>
        rw [hx] at hr
        cases hr with
        | some hr =>
          cases hr
          exact ⟨xs, hg, _, ⟨_, hx, rfl⟩, by rw [hm, ht.unique hd]; rfl⟩

theorem positional_eq_ok_iff {expected : String} {vs : List Json}
    {fields : List (String × Datum)} :
    Decoder.positional expected 0 [nameSlot, messageSlot] vs = .ok fields ↔
      ∃ name rest, vs = .string name :: rest ∧
        ∃ m, Tells rest.head? m ∧ fields = [("name", .text name), ("message", .text m)] := by
  cases vs with
  | nil => simp [Decoder.positional, nameSlot]
  | cons v vs =>
    simp only [Decoder.positional, bind_eq_ok_iff, nameSlot, Decoder.text_eq_ok_iff]
    cases vs with
    | nil =>
      constructor
      · rintro ⟨_, ⟨name, rfl, rfl⟩, rest, hr, he⟩
        cases hr
        cases he
        exact ⟨name, [], rfl, _, .missing, rfl⟩
      · rintro ⟨name, _, he, m, hm, rfl⟩
        cases he
        cases hm
        exact ⟨_, ⟨name, rfl, rfl⟩, _, rfl, rfl⟩
    | cons w ws =>
      simp only [Decoder.positional, bind_eq_ok_iff, messageSlot, textOr_eq_ok_iff]
      constructor
      · rintro ⟨_, ⟨name, rfl, rfl⟩, _, ⟨_, ⟨m, hm, rfl⟩, _, hn, hp⟩, he⟩
        cases hn
        cases hp
        cases he
        exact ⟨name, w :: ws, rfl, m, hm, rfl⟩
      · rintro ⟨name, _, he, m, hm, rfl⟩
        cases he
        exact ⟨_, ⟨name, rfl, rfl⟩, _, ⟨_, ⟨m, hm, rfl⟩, _, rfl, rfl⟩, rfl⟩

theorem record_array_eq_ok_iff {vs : List Json} {x : Datum} :
    Decoder.record "ErrorDescriptor" [nameSlot, messageSlot] (.array vs) = .ok x ↔
      ∃ d, Describes (.array vs) d ∧ x = d.toDatum := by
  simp only [Decoder.record, bind_eq_ok_iff, positional_eq_ok_iff]
  constructor
  · rintro ⟨_, ⟨name, rest, rfl, m, hm, rfl⟩, h⟩
    split at h
    · cases h
    · next hl =>
      cases h
      obtain _ | ⟨w, _ | ⟨_, _⟩⟩ := rest
      · cases hm
        exact ⟨_, .single name, rfl⟩
      · exact ⟨_, .pair name hm, rfl⟩
      · simp at hl
  · rintro ⟨_, h, rfl⟩
    cases h with
    | single name => exact ⟨_, ⟨name, [], rfl, _, .missing, rfl⟩, rfl⟩
    | pair name hm => exact ⟨_, ⟨name, _, rfl, _, hm, rfl⟩, rfl⟩

/-- Of values whose entries stand in order, exactly those that describe a failure are read as
one. -/
theorem strict_eq_ok_iff {v : Json} (ho : Json.Ordered v) {x : Datum} :
    shape.strict v = .ok x ↔ ∃ d, Describes v d ∧ x = d.toDatum := by
  rw [strict_eq_record]
  cases v with
  | object entries => exact fielded_eq_ok_iff (Json.ordered_object.1 ho).1
  | array vs => exact record_array_eq_ok_iff
  | _ =>
    refine ⟨fun h => (nomatch h), ?_⟩
    rintro ⟨d, h, -⟩
    cases h

@[simp] theorem ofDatum?_toDatum (d : Descriptor) : ofDatum? d.toDatum = some d := rfl

theorem Describes.unique {v : Json} {d e : Descriptor} (h : Describes v d) (k : Describes v e) :
    d = e := by
  cases h with
  | object hn hm =>
    cases k with
    | object hn' hm' =>
      cases hn.symm.trans hn'
      rw [hm.unique hm']
  | single =>
    cases k
    rfl
  | pair name hm =>
    cases k with
    | pair _ hm' => rw [hm.unique hm']

end RemoteCall.Descriptor
