import RemoteCall.Proofs.Outcome
import RemoteCall.Shape.Strict

/-! What the entries of an object give to the fields of a record. -/

namespace RemoteCall.Decoder

open Outcome (bind_eq_ok_iff)

variable {slots : List Slot} {name : String} {s : Slot}

/-- Under the name of a field stands what its reader makes of the entry, or nothing where there is
no entry. -/
theorem rel_given {es : List (String × Json)} {xs : List (String × Datum)}
    (h : given slots es = .ok xs) (hs : slot? slots name = some s) :
    Option.Rel (fun v x => s.read v = .ok x) (Entries.get? es name) (Entries.get? xs name) := by
  induction es generalizing xs with
  | nil =>
    cases h
    exact .none
  | cons e es ih =>
    obtain ⟨k, v⟩ := e
    rw [given] at h
    split at h
    · next hk =>
      have hne : k ≠ name := fun he => by
        rw [he, hs] at hk
        cases hk
      rw [Entries.get?, if_neg hne]
      exact ih h
    · next t hk =>
      simp only [bind_eq_ok_iff] at h
      obtain ⟨x, hx, rest, hr, he⟩ := h
      cases he
      rw [Entries.get?, Entries.get?]
      split
      · next he =>
        rw [he, hs] at hk
        cases hk
        exact .some hx
      · exact ih hr

theorem exists_given {es : List (String × Json)}
    (h : ∀ e ∈ es, ∀ s, slot? slots e.1 = some s → ∃ x, s.read e.2 = .ok x) :
    ∃ xs, given slots es = .ok xs := by
  induction es with
  | nil => exact ⟨[], rfl⟩
  | cons e es ih =>
    obtain ⟨he, ht⟩ := List.forall_mem_cons.1 h
    obtain ⟨xs, hxs⟩ := ih ht
    obtain ⟨k, v⟩ := e
    rw [given]
    split
    · exact ⟨xs, hxs⟩
    · next s hs =>
      obtain ⟨x, hx⟩ := he s hs
      exact ⟨(k, x) :: xs, by rw [hx, hxs]; rfl⟩

theorem text_eq_ok_iff {v : Json} {x : Datum} :
    text v = .ok x ↔ ∃ s, v = .string s ∧ x = .text s := by
  cases v with
  | string s => simp [text, eq_comm]
  | _ => simp [text, wrongKind]

end RemoteCall.Decoder
