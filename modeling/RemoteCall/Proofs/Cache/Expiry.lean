import RemoteCall.Proofs.Cache

/-!
Expiry of what is kept. Looking up drops an entry as soon as it is not live, eviction only later.
Main statement: neither is seen by any later lookup of a function with a time to live.
-/

namespace RemoteCall

/-- A sum that is cut off at the latest time lies past every earlier one. -/
theorem Instant.lt_later_iff {t now : Instant} (ht : 0 ≤ t.val)
    (hn : now.val < 9223372036854775807) (ttl : UInt64) :
    now.val < (t.later ttl).val ↔ now.val - t.val < ttl.toNat * 1000 := by
  simp only [later, clamp]
  omega

namespace Cache

/-- What is read of a key is an object like the one that it was made of. -/
theorem parse_key {func : String} {input v : Json}
    (h : Json.parse (key func input).toList = .ok v) :
    ∃ w, v = .object [("func", .string func), ("input", w)] := by
  rw [key, Json.text, String.toList_ofList] at h
  obtain ⟨es, rfl, hes⟩ := Json.parse_object h
  cases hes with
  | @cons _ f _ _ hf hes =>
    cases hes with
    | @cons _ i _ _ hi hes =>
      cases hes
      obtain ⟨k, x⟩ := f
      obtain ⟨k', w⟩ := i
      obtain ⟨rfl, hx⟩ := hf
      obtain ⟨rfl, -⟩ := hi
      rw [(Json.Whole.string func).reread_eq (.string func) (Nat.zero_le _)] at hx
      cases hx
      have ho : Entries.Ordered [("func", Json.string func), ("input", w)] :=
        Entries.ordered_of_keys (show ["func", "input"].Pairwise (· < ·) by decide)
      exact ⟨w, congrArg Json.object (Entries.ofList_eq_self ho)⟩

/-- A key that can be read tells the function that it was made of. -/
theorem func?_key {func f : String} {input : Json} (h : func? (key func input) = some f) :
    f = func := by
  unfold func? at h
  split at h
  · next v hv =>
    obtain ⟨w, rfl⟩ := parse_key hv
    cases h
    rfl
  · cases h

/-! ### Live entries -/

/-- The entry under a key that is live at a time. -/
def live? (c : Cache) (key : String) (ttl : UInt64) (now : Instant) : Option CacheEntry :=
  (c.entries.get? key).filter fun e => now.val < (e.expiresAt ttl).val

variable {c : Cache} {key : String} {ttl : UInt64} {now t : Instant}

theorem lookup_fst (c : Cache) (key : String) (ttl : UInt64) (now : Instant) :
    (c.lookup key ttl now).1 = (c.live? key ttl now).map fun e => (e.output, e.attachments) := by
  rw [lookup, live?]
  cases c.entries.get? key with
  | none => rfl
  | some e =>
    rw [Option.filter_some]
    by_cases he : now.val < (e.expiresAt ttl).val
    · simp only [he, decide_true, if_true]
      rfl
    · simp only [he, decide_false, if_false]
      rfl

theorem live?_eq_some_iff {e : CacheEntry} :
    c.live? key ttl now = some e ↔
      c.entries.get? key = some e ∧ now.val < (e.expiresAt ttl).val := by
  simp [live?, Option.filter_eq_some_iff]

/-- What comes of looking up. A live entry is found, and nothing changes. Otherwise nothing is
found, and an entry that has expired is dropped. -/
inductive Looked (c : Cache) (key : String) (ttl : UInt64) (now : Instant) :
    Option (Json × List Attachment) × Cache → Prop
  | live {x : CacheEntry} : c.live? key ttl now = some x →
    Looked c key ttl now (some (x.output, x.attachments), c)
  | absent : c.live? key ttl now = none → Looked c key ttl now (none, c)
  | expired {x : CacheEntry} : c.live? key ttl now = none → c.entries.get? key = some x →
    (x.expiresAt ttl).val ≤ now.val → Looked c key ttl now (none, ⟨c.entries.drop key⟩)

theorem looked_lookup (c : Cache) (key : String) (ttl : UInt64) (now : Instant) :
    Looked c key ttl now (c.lookup key ttl now) := by
  rw [lookup]
  cases hx : c.entries.get? key with
  | none => exact .absent (by rw [live?, hx]; rfl)
  | some x =>
    by_cases hn : now.val < (x.expiresAt ttl).val
    · simp only [if_pos hn]
      exact .live (live?_eq_some_iff.2 ⟨hx, hn⟩)
    · simp only [if_neg hn]
      refine .expired ?_ hx (Int.not_lt.1 hn)
      rw [live?, hx, Option.filter_some, decide_eq_false hn]
      rfl

/-! ### What is dropped -/

/-- Dropping entries that have expired under a key changes nothing of what is live there. -/
theorem live?_filter (ho : Entries.Ordered c.entries) {p : String × CacheEntry → Bool}
    (hp : ∀ e, c.entries.get? key = some e → p (key, e) = false →
      (e.expiresAt ttl).val ≤ t.val) :
    (⟨c.entries.filter p⟩ : Cache).live? key ttl t = c.live? key ttl t := by
  rw [live?, live?, Entries.get?_filter ho]
  cases he : c.entries.get? key with
  | none => rfl
  | some e =>
    rw [Option.filter_some]
    cases hpe : p (key, e) with
    | true => rfl
    | false =>
      have hn : ¬ t.val < (e.expiresAt ttl).val := Int.not_lt.2 (hp e he hpe)
      simp only [Option.filter_some, hn, decide_false]
      rfl

/-- Looking up is not seen later. -/
theorem live?_lookup (ho : Entries.Ordered c.entries) {key' : String} {ttl' : UInt64}
    (hk : key = key' → ttl = ttl') (ht : now.val ≤ t.val) :
    (c.lookup key ttl now).2.live? key' ttl' t = c.live? key' ttl' t := by
  rw [lookup]
  cases he : c.entries.get? key with
  | none => rfl
  | some e =>
    by_cases hl : now.val < (e.expiresAt ttl).val
    · simp only [hl, if_true]
    · simp only [hl, if_false]
      refine live?_filter ho fun e' he' hp => ?_
      obtain rfl : key' = key := by simpa using hp
      cases hk rfl
      cases he.symm.trans he'
      omega

/-- Eviction is not seen later. -/
theorem live?_removeExpired (ho : Entries.Ordered c.entries) {ttls : Entries UInt64}
    {func : String} (hf : ttls.get? func = some ttl) (input : Json) (ht : now.val ≤ t.val) :
    (c.removeExpired ttls now).live? (Cache.key func input) ttl t =
      c.live? (Cache.key func input) ttl t := by
  refine live?_filter ho fun e _ hp => ?_
  simp only [stays] at hp
  split at hp
  · next ttl' hk =>
    obtain ⟨f, hkf, hft⟩ := Option.bind_eq_some_iff.1 hk
    rw [func?_key hkf] at hft
    cases hf.symm.trans hft
    have := of_decide_eq_false hp
    omega
  · cases hp

/-! ### Caches that cannot be told apart -/

/-- From a time on, the same entries of functions with a time to live are live in both caches, alike
in output, attachments and time of storing, and so the same is found in them. -/
def Alike (ttls : Entries UInt64) (since : Instant) (c d : Cache) : Prop :=
  ∀ func ttl, ttls.get? func = some ttl → ∀ input t, since.val ≤ t.val →
    c.live? (Cache.key func input) ttl t = d.live? (Cache.key func input) ttl t ∧
      (c.lookup (Cache.key func input) ttl t).1 = (d.lookup (Cache.key func input) ttl t).1

theorem Alike.trans {ttls : Entries UInt64} {since : Instant} {c d e : Cache}
    (h : Alike ttls since c d) (h' : Alike ttls since d e) : Alike ttls since c e :=
  fun func ttl hf input t ht =>
    ⟨(h func ttl hf input t ht).1.trans (h' func ttl hf input t ht).1,
      (h func ttl hf input t ht).2.trans (h' func ttl hf input t ht).2⟩

theorem alike_removeExpired (ho : Entries.Ordered c.entries) (ttls : Entries UInt64)
    {since : Instant} (h : now.val ≤ since.val) :
    Alike ttls since (c.removeExpired ttls now) c := by
  intro func ttl hf input t ht
  have hl := live?_removeExpired ho hf input (Int.le_trans h ht)
  exact ⟨hl, by rw [lookup_fst, lookup_fst, hl]⟩

end Cache

end RemoteCall
