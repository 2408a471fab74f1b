import RemoteCall.Proofs.Cache.Expiry
import RemoteCall.Proofs.Json.Reread

/-!
What eviction keeps of what is kept under the keys of calls: the function of an entry is read off
its key. Main statement: evictions one after another keep what one at the latest of their times
keeps, and alter none of it.
-/

namespace RemoteCall

/-- The later of two times. -/
def Instant.latest (t t' : Instant) : Instant := if t.val ≤ t'.val then t' else t

theorem Instant.latest_le_iff {t t' u : Instant} :
    (latest t t').val ≤ u.val ↔ t.val ≤ u.val ∧ t'.val ≤ u.val := by
  rw [latest]
  split <;> omega

namespace Cache

/-- The function is read off the key of a call, whatever numbers there are in its input. -/
theorem func?_key_of_depth (func : String) {input : Json} (h : input.depth ≤ 126) :
    func? (key func input) = some func := by
  have hd : (Json.object [("func", .string func), ("input", input)]).depth ≤ Json.depthLimit := by
    simp only [Json.depth, Json.entriesDepth, Json.depthLimit]
    omega
  obtain ⟨v, hv⟩ := Json.exists_parse_chars hd
  have hk : Json.parse (key func input).toList = .ok v := by
    rw [key, Json.text, String.toList_ofList, hv]
  obtain ⟨w, rfl⟩ := parse_key hk
  rw [func?, hk]
  rfl

variable {c : Cache} {ttls : Entries UInt64} {func : String} {input : Json} {ttl : UInt64}
  {x : CacheEntry}

/-- What eviction keeps of a function with a time to live. What is found there is what is live,
which leaves out the time of expiry. -/
theorem get?_removeExpired (ho : Entries.Ordered c.entries) (hf : ttls.get? func = some ttl)
    (hd : input.depth ≤ 126) (now : Instant) :
    (c.removeExpired ttls now).entries.get? (key func input) =
      (c.entries.get? (key func input)).filter fun e => now.val ≤ (e.expiresAt ttl).val := by
  refine (Entries.get?_filter ho _ _).trans (congrArg (Option.filter · _) (funext fun e => ?_))
  simp only [stays, func?_key_of_depth func hd, Option.bind_eq_bind, Option.bind_some, hf]

theorem get?_removeExpired_iff (ho : Entries.Ordered c.entries) (hf : ttls.get? func = some ttl)
    (hd : input.depth ≤ 126) (hx : c.entries.get? (key func input) = some x) (now : Instant) :
    (c.removeExpired ttls now).entries.get? (key func input) = some x ↔
      now.val ≤ (x.expiresAt ttl).val := by
  rw [get?_removeExpired ho hf hd, hx, Option.filter_eq_some_iff]
  simp

theorem lookup_fst_iff {key : String} (hx : c.entries.get? key = some x) (ttl : UInt64)
    (now : Instant) :
    (c.lookup key ttl now).1 = some (x.output, x.attachments) ↔
      now.val < (x.expiresAt ttl).val := by
  rw [lookup_fst, live?, hx, Option.filter_some]
  by_cases hn : now.val < (x.expiresAt ttl).val <;> simp [hn]

/-! ### One eviction after another -/

/-- An entry that stays at the later of two times stays at both, and the other way round. -/
theorem stays_latest (ttls : Entries UInt64) (t t' : Instant) (key : String) (x : CacheEntry) :
    stays ttls (.latest t t') key x = (stays ttls t key x && stays ttls t' key x) := by
  rw [stays, stays, stays]
  cases func? key >>= ttls.get? with
  | none => rfl
  | some ttl =>
    rw [Bool.eq_iff_iff, Bool.and_eq_true, decide_eq_true_iff, decide_eq_true_iff,
      decide_eq_true_iff]
    exact Instant.latest_le_iff

theorem removeExpired_removeExpired (c : Cache) (ttls : Entries UInt64) (t t' : Instant) :
    (c.removeExpired ttls t).removeExpired ttls t' = c.removeExpired ttls (.latest t t') := by
  rw [removeExpired, removeExpired, removeExpired, List.filter_filter]
  refine congrArg Cache.mk (List.filter_congr fun e _ => ?_)
  rw [stays_latest, Bool.and_comm]

/-- All keys are those of calls, with inputs that are not nested too deep to be read again. -/
def Keyed (c : Cache) : Prop :=
  ∀ e ∈ c.entries, ∃ func input, e.1 = key func input ∧ input.depth ≤ 126

theorem Keyed.func?_eq (h : c.Keyed) (hx : (key func input, x) ∈ c.entries) :
    func? (key func input) = some func := by
  obtain ⟨func', input', hk, hd⟩ := h _ hx
  obtain ⟨-, rfl⟩ := key_inj hk
  exact func?_key_of_depth func hd

/-- An entry goes at the first time past the one at which it expires, if its function has a time to
live. -/
theorem Keyed.mem_removeExpired_iff (h : c.Keyed) (ttls : Entries UInt64) (t : Instant)
    (hx : (key func input, x) ∈ c.entries) :
    (key func input, x) ∈ (c.removeExpired ttls t).entries ↔
      ∀ ttl, ttls.get? func = some ttl → t.val ≤ (x.expiresAt ttl).val := by
  rw [removeExpired, List.mem_filter, stays, h.func?_eq hx, Option.bind_eq_bind, Option.bind_some]
  cases ttls.get? func with
  | none => simp [hx]
  | some ttl => simp [hx]

/-- Two evictions keep what one at the later of their times keeps. Each leaves out entries and
alters none; the function that it reads off a key is the one that the key was made of, and an entry
of a function without a time to live stays. -/
theorem removeExpired_composes (h : c.Keyed) (ttls : Entries UInt64) (t t' : Instant) :
    (c.removeExpired ttls t).removeExpired ttls t' = c.removeExpired ttls (.latest t t') ∧
      (c.removeExpired ttls t).entries.Sublist c.entries ∧
      ∀ func input x, (key func input, x) ∈ c.entries →
        func? (key func input) = some func ∧
        ((key func input, x) ∈ (c.removeExpired ttls t).entries ↔
          ∀ ttl, ttls.get? func = some ttl → t.val ≤ (x.expiresAt ttl).val) ∧
        (ttls.get? func = none → (key func input, x) ∈ (c.removeExpired ttls t).entries) := by
  refine ⟨removeExpired_removeExpired c ttls t t', List.filter_sublist,
    fun func input x hx => ?_⟩
  have hk := h.mem_removeExpired_iff ttls t hx
  refine ⟨h.func?_eq hx, hk, fun hn => hk.2 fun ttl ht => ?_⟩
  cases hn.symm.trans ht

/-- An entry of one function, and one of a function that is named like the key of the first. -/
def tangled : Cache :=
  ⟨[(key "a\"" .null, ⟨.null, [], .clamp 0⟩),
    (key "\x7b\"func\":\"a\\\"\",\"input\":null\x7d" .null, ⟨.bool true, [], .clamp 0⟩)]⟩

theorem keyed_tangled : tangled.Keyed := by
  refine List.forall_mem_cons.2 ⟨?_, List.forall_mem_singleton.2 ?_⟩
  · exact ⟨_, .null, rfl, Nat.zero_le _⟩
  · exact ⟨_, .null, rfl, Nat.zero_le _⟩

theorem removeExpired_composes_tangled :
    tangled.Keyed ∧
      (tangled.removeExpired [("a\"", 1)] (.clamp 1001)).removeExpired [("a\"", 1)] (.clamp 7) =
        tangled.removeExpired [("a\"", 1)] (.latest (.clamp 1001) (.clamp 7)) ∧
      (key "a\"" .null, ⟨.null, [], .clamp 0⟩) ∉
        (tangled.removeExpired [("a\"", 1)] (.clamp 1001)).entries ∧
      (key "\x7b\"func\":\"a\\\"\",\"input\":null\x7d" .null, ⟨.bool true, [], .clamp 0⟩) ∈
        (tangled.removeExpired [("a\"", 1)] (.clamp 1001)).entries := by
  obtain ⟨hc, -, hk⟩ :=
    removeExpired_composes keyed_tangled [("a\"", 1)] (.clamp 1001) (.clamp 7)
  obtain ⟨-, hg, -⟩ := hk "a\"" .null _ List.mem_cons_self
  obtain ⟨-, -, hs⟩ := hk _ .null _ (List.mem_cons_of_mem _ (List.mem_singleton_self _))
  exact ⟨keyed_tangled, hc, fun hm => absurd (hg.1 hm 1 rfl) (by decide), hs (by decide)⟩

end Cache

end RemoteCall
