import RemoteCall.Proofs.Shape.Extension
import RemoteCall.Shape.Built

/-!
Where the fields of a record come from. Main statement: each field of what is built is read from
what the value carries for it, or something stands in where it carries nothing. A field is read
leniently only from an object, and only where the record as a whole could not be read strictly.
-/

namespace RemoteCall

open Outcome (bind_eq_ok_iff)

/-- What becomes of a field, given what is carried for it. -/
inductive Field.ReadAs (read : Shape → Decoder) (f : Field Shape) : Option Json → Datum → Prop
  | given {v : Json} {x : Datum} : read f.content v = .ok x → f.ReadAs read (some v) x
  | missing {x : Datum} : f.standIn = some x → f.ReadAs read none x

namespace Field

variable {read : Shape → Decoder} {f : Field Shape} {v : Json} {x : Datum}

@[simp] theorem readAs_none : f.ReadAs read none x ↔ f.standIn = some x :=
  ⟨fun | .missing h => h, .missing⟩

@[simp] theorem readAs_some : f.ReadAs read (some v) x ↔ read f.content v = .ok x :=
  ⟨fun | .given h => h, .given⟩

end Field

namespace Shape

/-- What a value carries for a field of a record: the entry under its name, or the element in its
place. -/
def carried? (fields : List (Field Shape)) (name : String) : Json → Option Json
  | .object es => Entries.get? es name
  | .array vs => vs[(fields.map Field.name).idxOf name]?
  | _ => none

/-- Every field is in the record, under its name, as what becomes of it. -/
def Reads (read : Shape → Decoder) (fields : List (Field Shape))
    (carried : String → Option Json) (xs : List (String × Datum)) : Prop :=
  ∀ f ∈ fields, ∃ y, Entries.get? xs f.name = some y ∧ f.ReadAs read (carried f.name) y

variable {fields : List (Field Shape)} {read : Shape → Decoder}

theorem reads_of_fielded (hd : (fields.map Field.name).Nodup) {es : Entries Json} {x : Datum}
    (h : Decoder.fielded (fields.map (slotOf read)) es = .ok x) :
    ∃ xs, x = .record xs ∧ Reads read fields es.get? xs := by
  simp only [Decoder.fielded, bind_eq_ok_iff] at h
  obtain ⟨given, hg, xs, hc, hx⟩ := h
  refine ⟨xs, (Except.ok.inj hx).symm, fun f hf => ?_⟩
  have hr := Decoder.rel_given hg (slot?_of_mem hd read hf)
  obtain ⟨y, hy, hget⟩ := Decoder.get?_complete (by rw [List.map_map]; exact hd) hc
    (List.mem_map_of_mem hf)
  refine ⟨y, hget, ?_⟩
  change (Entries.get? given f.name).or f.standIn = some y at hy
  generalize Entries.get? given f.name = z at hr hy
  generalize es.get? f.name = v at hr ⊢
  cases hr with
  | none => exact .missing hy
  | some hz =>
    cases hy
    exact .given hz

theorem reads_of_positional (hd : (fields.map Field.name).Nodup) {expected : String} {n : Nat}
    {vs : List Json} {xs : List (String × Datum)}
    (h : Decoder.positional expected n (fields.map (slotOf read)) vs = .ok xs) :
    Reads read fields (fun name => vs[(fields.map Field.name).idxOf name]?) xs := by
  induction fields generalizing n vs xs with
  | nil => exact List.forall_mem_nil _
  | cons g fields ih =>
    obtain ⟨hg, hd⟩ := List.nodup_cons.1 hd
    have hne : ∀ f ∈ fields, g.name ≠ f.name := fun f hf he =>
      hg (he ▸ List.mem_map_of_mem hf)
    cases vs with
    | nil =>
      simp only [List.map_cons, Decoder.positional] at h
      split at h
      · next y hy =>
        simp only [bind_eq_ok_iff] at h
        obtain ⟨rest, hr, hx⟩ := h
        cases hx
        have hy : g.default = some y := hy
        refine List.forall_mem_cons.2 ⟨⟨y, if_pos rfl, .missing ?_⟩, fun f hf => ?_⟩
        · rw [Field.standIn, hy]
          rfl
        · obtain ⟨z, hz, hf'⟩ := ih hd hr f hf
          exact ⟨z, (if_neg (hne f hf)).trans hz, hf'⟩
      · cases h
    | cons v vs =>
      simp only [List.map_cons, Decoder.positional, bind_eq_ok_iff] at h
      obtain ⟨y, hy, rest, hr, hx⟩ := h
      cases hx
      refine List.forall_mem_cons.2 ⟨⟨y, if_pos rfl, ?_⟩, fun f hf => ?_⟩
      · simp only [List.map_cons, List.idxOf_cons_self]
        exact .given hy
      · obtain ⟨z, hz, hf'⟩ := ih hd hr f hf
        refine ⟨z, (if_neg (hne f hf)).trans hz, ?_⟩
        simp only [List.map_cons, List.idxOf_cons_ne _ (hne f hf)]
        exact hf'

variable {name : String} {v : Json} {x : Datum}

theorem reads_of_strict (hd : (fields.map Field.name).Nodup)
    (h : (record name fields).strict v = .ok x) :
    ∃ xs, x = .record xs ∧ Reads strict fields (fun name => carried? fields name v) xs := by
  rw [strict, strictSlots_eq] at h
  cases v with
  | object es => exact reads_of_fielded hd h
  | array vs =>
    simp only [Decoder.record, bind_eq_ok_iff] at h
    obtain ⟨xs, hp, hx⟩ := h
    split at hx
    · cases hx
    · exact ⟨xs, (Except.ok.inj hx).symm, reads_of_positional hd hp⟩
  | _ => cases h

/-- What is built of a value is read strictly, if that is possible. Otherwise the value is an
object, and its entries are read leniently, those that hold null passed over. -/
theorem reads_of_build (hd : (fields.map Field.name).Nodup) (ho : v.Ordered)
    (h : (record name fields).build v = .typed x) :
    ∃ xs, x = .record xs ∧
      ((record name fields).strict v = .ok x ∧
          Reads strict fields (fun name => carried? fields name v) xs ∨
        (∃ m, (record name fields).strict v = .error m) ∧ (∃ es, v = .object es) ∧
          Reads lax fields (fun name => (carried? fields name v).filter (!·.isNull)) xs) := by
  rw [build] at h
  split at h
  · next d hs =>
    cases h
    obtain ⟨xs, hx, hr⟩ := reads_of_strict hd hs
    exact ⟨xs, hx, .inl ⟨hs, hr⟩⟩
  · next m hs =>
    split at h
    · next d hl =>
      cases h
      cases v with
      | object es =>
        rw [lax, Lax.record, laxSlots_eq] at hl
        obtain ⟨xs, hx, hr⟩ := reads_of_fielded hd hl
        refine ⟨xs, hx, .inr ⟨⟨m, hs⟩, ⟨es, rfl⟩, fun f hf => ?_⟩⟩
        obtain ⟨y, hy, hr⟩ := hr f hf
        rw [Lax.present, Entries.get?_filter (Json.ordered_object.1 ho).1] at hr
        exact ⟨y, hy, hr⟩
      | _ => cases hl.symm.trans hs
    · cases h

end Shape

end RemoteCall
