import RemoteCall.Cache
import RemoteCall.Proofs.Json.Assembly
import RemoteCall.Proofs.Json.Injective

/-!
What is kept: no two calls share a key, and each operation keeps nothing but what was kept before
and what is stored, in the order of the keys.
-/

namespace RemoteCall.Cache

/-- A key tells the function and the input that it is the key of. -/
theorem key_inj {func func' : String} {input input' : Json}
    (h : key func input = key func' input') : func = func' ∧ input = input' := by
  have ht := Json.text_injective h
  injection ht with he
  injection he with hf he
  injection he with hi
  injection hf with _ hf
  injection hf with hf
  injection hi with _ hi
  exact ⟨hf, hi⟩

theorem key_eq_iff {func func' : String} {input input' : Json} :
    key func input = key func' input' ↔ func = func' ∧ input = input' :=
  ⟨key_inj, fun ⟨hf, hi⟩ => by rw [hf, hi]⟩

/-- Two calls have the same key exactly if they are of the same function with the same input, in
whatever order the entries of the inputs were put in. -/
theorem key_eq_iff_same_call (func func' : String) (input input' : Json) :
    (key func input = key func' input' ↔ func = func' ∧ input = input') ∧
      (key func input.assembled = key func' input'.assembled ↔
        func = func' ∧ Json.Same input input') := by
  refine ⟨key_eq_iff, ?_⟩
  rw [key_eq_iff, Json.assembled_eq_iff]

variable {c : Cache} {key : String} {e : String × CacheEntry}

theorem lookup_eq_some {ttl : UInt64} {now : Instant} {r : Json × List Attachment} {c' : Cache}
    (h : c.lookup key ttl now = (some r, c')) :
    c' = c ∧ ∃ epoch, (key, ⟨r.1, r.2, epoch⟩) ∈ c.entries := by
  rw [lookup] at h
  split at h
  · next e he =>
    split at h
    · cases h
      exact ⟨rfl, e.epoch, Entries.mem_of_get? he⟩
    · cases h
  · cases h

theorem mem_lookup {ttl : UInt64} {now : Instant} (h : e ∈ (c.lookup key ttl now).2.entries) :
    e ∈ c.entries := by
  rw [lookup] at h
  split at h
  · split at h
    · exact h
    · exact List.mem_of_mem_filter h
  · exact h

theorem mem_store {output : Json} {attachments : List Attachment} {now : Instant}
    (h : e ∈ (c.store key output attachments now).entries) :
    e = (key, ⟨output, attachments, now⟩) ∨ e ∈ c.entries :=
  Entries.mem_put h

theorem mem_removeExpired {ttls : Entries UInt64} {now : Instant}
    (h : e ∈ (c.removeExpired ttls now).entries) : e ∈ c.entries :=
  List.mem_of_mem_filter h

/-! ### Order -/

theorem ordered_lookup (ho : Entries.Ordered c.entries) (key : String) (ttl : UInt64)
    (now : Instant) : Entries.Ordered (c.lookup key ttl now).2.entries := by
  rw [lookup]
  split
  · split
    · exact ho
    · exact List.Pairwise.filter _ ho
  · exact ho

theorem ordered_removeExpired (ho : Entries.Ordered c.entries) (ttls : Entries UInt64)
    (now : Instant) : Entries.Ordered (c.removeExpired ttls now).entries :=
  List.Pairwise.filter _ ho

/-- The entries of a cache, and of every output in it, stand in the order of their keys. -/
structure Ordered (c : Cache) : Prop where
  entries : Entries.Ordered c.entries
  outputs : ∀ e ∈ c.entries, e.2.output.Ordered

namespace Ordered

theorem empty : Cache.empty.Ordered := ⟨.nil, List.forall_mem_nil _⟩

variable (h : c.Ordered)
include h

theorem lookup (key : String) (ttl : UInt64) (now : Instant) :
    (c.lookup key ttl now).2.Ordered :=
  ⟨ordered_lookup h.entries key ttl now, fun e he => h.outputs e (mem_lookup he)⟩

theorem store (key : String) {output : Json} (ho : output.Ordered) (attachments : List Attachment)
    (now : Instant) : (c.store key output attachments now).Ordered where
  entries := h.entries.put _ _
  outputs e he := by
    rcases mem_store he with rfl | he
    · exact ho
    · exact h.outputs e he

theorem removeExpired (ttls : Entries UInt64) (now : Instant) :
    (c.removeExpired ttls now).Ordered :=
  ⟨ordered_removeExpired h.entries ttls now, fun e he => h.outputs e (mem_removeExpired he)⟩

end Ordered

end RemoteCall.Cache
