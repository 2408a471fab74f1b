import RemoteCall.Json.Parser
import RemoteCall.Proofs.Entries
import RemoteCall.Proofs.Json.Value
import RemoteCall.Proofs.Outcome

/-! What the reader yields: values with their entries in order, nested no deeper than its limit. -/

namespace RemoteCall.Json

open Outcome (bind_eq_ok_iff)

theorem ordered_ofEntries {entries : List (String × Json)} (h : ∀ e ∈ entries, Ordered e.2) :
    Ordered (.ofEntries entries) :=
  .object (Entries.ordered_ofList entries) fun e he => h e (Entries.mem_ofList he)

/-- A value the reader may yield where containers may be nested `depth` deep. -/
def Fits (depth : Nat) (v : Json) : Prop :=
  Ordered v ∧ v.depth ≤ depth

variable {depth : Nat}

theorem Fits.array {items : List Json} (h : ∀ v ∈ items, Fits depth v) :
    Fits (depth + 1) (.array items) :=
  ⟨.array fun v hv => (h v hv).1, Nat.succ_le_succ (itemsDepth_le_iff.2 fun v hv => (h v hv).2)⟩

theorem Fits.ofEntries {entries : List (String × Json)} (h : ∀ e ∈ entries, Fits depth e.2) :
    Fits (depth + 1) (.ofEntries entries) :=
  ⟨ordered_ofEntries fun e he => (h e he).1,
    Nat.succ_le_succ (entriesDepth_le_iff.2 fun e he => (h e (Entries.mem_ofList he)).2)⟩

mutual

theorem fits_value {v : Json} :
    ∀ {d : Draft} {depth : Nat}, d.value depth = .ok v → Fits depth v
  | .null, _, h => by cases h; exact ⟨.null, Nat.zero_le _⟩
  | .bool b, _, h => by cases h; exact ⟨.bool b, Nat.zero_le _⟩
  | .number (some n), _, h => by cases h; exact ⟨.number n, Nat.zero_le _⟩
  | .string us, _, h => by
    rw [Draft.value] at h
    split at h
    · cases h
      exact ⟨.string _, Nat.zero_le _⟩
    · cases h
  | .array items stop, depth, h => by
    cases depth with
    | zero => cases h
    | succ depth =>
      simp only [Draft.value, bind_eq_ok_iff] at h
      obtain ⟨vs, hvs, h⟩ := h
      cases stop with
      | some f => cases h
      | none =>
        cases h
        exact .array (fits_itemValues hvs)
  | .object entries stop, depth, h => by
    cases depth with
    | zero => cases h
    | succ depth =>
      simp only [Draft.value, bind_eq_ok_iff] at h
      obtain ⟨es, hes, h⟩ := h
      cases stop with
      | some f => cases h
      | none =>
        cases h
        exact .ofEntries (fits_entryValues hes)

theorem fits_itemValues {vs : List Json} : ∀ {ds : List Draft} {depth : Nat},
    Draft.itemValues depth ds = .ok vs → ∀ v ∈ vs, Fits depth v
  | [], _, h => by cases h; exact fun _ h => nomatch h
  | d :: ds, _, h => by
    simp only [Draft.itemValues, bind_eq_ok_iff] at h
    obtain ⟨v, hv, vs, hvs, h⟩ := h
    cases h
    exact List.forall_mem_cons.2 ⟨fits_value hv, fits_itemValues hvs⟩

theorem fits_entryValues {es : List (String × Json)} :
    ∀ {ds : List (Key × Draft)} {depth : Nat},
    Draft.entryValues depth ds = .ok es → ∀ e ∈ es, Fits depth e.2
  | [], _, h => by cases h; exact fun _ h => nomatch h
  | (k, d) :: ds, _, h => by
    simp only [Draft.entryValues, bind_eq_ok_iff] at h
    obtain ⟨key, -, v, hv, es, hes, h⟩ := h
    cases h
    exact List.forall_mem_cons.2 ⟨fits_value hv, fits_entryValues hes⟩

end

theorem fits_parse {cs : List Char} {v : Json} (h : parse cs = .ok v) : Fits depthLimit v := by
  simp only [parse, bind_eq_ok_iff] at h
  obtain ⟨v', hv, h⟩ := h
  split at h
  · cases h
  · cases h
    exact fits_value hv

theorem ordered_parseBytes {bs : List UInt8} {v : Json} (h : parseBytes bs = .ok v) :
    Ordered v := by
  rw [parseBytes] at h
  split at h
  · exact (fits_parse h).1
  · cases h

end RemoteCall.Json
