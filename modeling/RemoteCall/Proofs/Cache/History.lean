import RemoteCall.Proofs.Cache.Expiry

/-!
Courses of what is done to a cache. Main statement: looking up finds the reply that was stored last,
as long as less time has passed since then than its function has to live, and nothing else; whatever
was dropped before makes no difference.
-/

namespace RemoteCall.Cache

/-- What is done to a cache. All keys are made of a function and its input. -/
inductive Step
  | store (func : String) (input output : Json) (attachments : List Attachment) (now : Instant)
  | lookup (func : String) (input : Json) (ttl : UInt64) (now : Instant)
  | removeExpired (now : Instant)
  | clear

namespace Step

def apply (ttls : Entries UInt64) (c : Cache) : Step → Cache
  | .store func input output attachments now => c.store (key func input) output attachments now
  | .lookup func input ttl now => (c.lookup (key func input) ttl now).2
  | .removeExpired now => c.removeExpired ttls now
  | .clear => .empty

def time? : Step → Option Instant
  | .store _ _ _ _ now => some now
  | .lookup _ _ _ now => some now
  | .removeExpired now => some now
  | .clear => none

/-- Whether a step changes what is kept otherwise than by dropping what has expired. -/
def writes : Step → Bool
  | .store .. => true
  | .clear => true
  | _ => false

/-- A function of the table is looked up with the time to live that the table gives it. -/
def Heeds (ttls : Entries UInt64) : Step → Prop
  | .lookup func _ ttl _ => ∀ ttl', ttls.get? func = some ttl' → ttl' = ttl
  | _ => True

/-- The steps after which no earlier reply for an input counts any more. -/
inductive Supersedes (func : String) (input : Json) : Step → Prop
  | store (output : Json) (attachments : List Attachment) (now : Instant) :
    Supersedes func input (.store func input output attachments now)
  | clear : Supersedes func input .clear

end Step

/-- What comes of a course of steps on an empty cache. -/
def run (ttls : Entries UInt64) (steps : List Step) : Cache := steps.foldl (Step.apply ttls) .empty

/-- An entry is the last one that was stored for a function and its input since the cache was last
cleared. -/
def LastStored (steps : List Step) (func : String) (input : Json) (e : CacheEntry) : Prop :=
  ∃ before after,
    steps = before ++ .store func input e.output e.attachments e.epoch :: after ∧
      ∀ s ∈ after, ¬ s.Supersedes func input

variable {ttls : Entries UInt64} {steps : List Step} {func : String} {input : Json}
  {e : CacheEntry}

theorem run_concat (ttls : Entries UInt64) (steps : List Step) (s : Step) :
    run ttls (steps ++ [s]) = s.apply ttls (run ttls steps) := by
  rw [run, List.foldl_append]
  rfl

/-! ### The last entry that was stored -/

theorem lastStored_concat {s : Step} :
    LastStored (steps ++ [s]) func input e ↔
      s = .store func input e.output e.attachments e.epoch ∨
        ¬ s.Supersedes func input ∧ LastStored steps func input e := by
  constructor
  · rintro ⟨before, after, hs, hn⟩
    rcases List.eq_nil_or_concat after with rfl | ⟨after, s', rfl⟩
    · exact .inl (List.cons.inj (List.append_inj' hs rfl).2).1
    · rw [List.concat_eq_append, ← List.cons_append, ← List.append_assoc] at hs
      rw [List.concat_eq_append, List.forall_mem_append, List.forall_mem_singleton] at hn
      obtain ⟨hb, hs⟩ := List.append_inj' hs rfl
      cases hs
      subst hb
      exact .inr ⟨hn.2, before, after, rfl, hn.1⟩
  · rintro (rfl | ⟨hs, before, after, rfl, hn⟩)
    · exact ⟨steps, [], rfl, List.forall_mem_nil _⟩
    · refine ⟨before, after ++ [s], ?_, ?_⟩
      · rw [List.append_assoc]
        rfl
      · exact List.forall_mem_append.2 ⟨hn, List.forall_mem_singleton.2 hs⟩

theorem not_lastStored_nil : ¬ LastStored [] func input e := by
  rintro ⟨before, after, hs, -⟩
  cases before <;> cases hs

theorem LastStored.unique {e' : CacheEntry} (h : LastStored steps func input e)
    (h' : LastStored steps func input e') : e = e' := by
  induction steps using List.reverseRecOn with
  | nil => exact absurd h not_lastStored_nil
  | append_singleton steps s ih =>
    rcases lastStored_concat.1 h with rfl | ⟨hs, h⟩
    · rcases lastStored_concat.1 h' with he | ⟨hs, -⟩
      · cases e
        cases e'
        cases he
        rfl
      · exact absurd (.store _ _ _) hs
    · rcases lastStored_concat.1 h' with rfl | ⟨-, h'⟩
      · exact absurd (.store _ _ _) hs
      · exact ih h h'

/-- Steps that only drop what has expired do not count. -/
theorem lastStored_concat_of_not_writes {s : Step} (hs : s.writes = false) :
    LastStored (steps ++ [s]) func input e ↔ LastStored steps func input e := by
  rw [lastStored_concat]
  cases s with
  | store | clear => cases hs
  | lookup | removeExpired =>
    exact ⟨fun h => h.elim nofun And.right, fun h => .inr ⟨nofun, h⟩⟩

theorem lastStored_filter_writes :
    LastStored (steps.filter Step.writes) func input e ↔ LastStored steps func input e := by
  induction steps using List.reverseRecOn with
  | nil => rfl
  | append_singleton steps s ih =>
    rw [List.filter_append]
    cases hs : s.writes with
    | false =>
      rw [List.filter_cons_of_neg (by simp [hs]), List.filter_nil, List.append_nil, ih,
        lastStored_concat_of_not_writes hs]
    | true =>
      rw [List.filter_cons_of_pos hs, List.filter_nil, lastStored_concat, lastStored_concat, ih]

/-! ### What one step keeps, and a whole course -/

/-- From the last step on, what is live is what was stored last and has not expired. -/
structure Follows (ttls : Entries UInt64) (steps : List Step) (c : Cache) : Prop where
  ordered : Entries.Ordered c.entries
  live : ∀ {func ttl}, ttls.get? func = some ttl → ∀ (input : Json) {t : Instant},
    (∀ s ∈ steps, ∀ u, s.time? = some u → u.val ≤ t.val) → ∀ e,
      c.live? (key func input) ttl t = some e ↔
        LastStored steps func input e ∧ t.val < (e.expiresAt ttl).val

theorem follows_empty (ttls : Entries UInt64) : Follows ttls [] .empty where
  ordered := .nil
  live _ _ _ _ _ := ⟨nofun, fun h => absurd h.1 not_lastStored_nil⟩

section

variable {c : Cache} {ttl : UInt64} {now t : Instant} {output : Json}
  {attachments : List Attachment}

theorem live?_store {k : String} :
    (c.store k output attachments now).live? k ttl t = some e ↔
      ⟨output, attachments, now⟩ = e ∧ t.val < (e.expiresAt ttl).val := by
  rw [live?_eq_some_iff, store, Entries.get?_put_self, Option.some_inj]

theorem live?_store_of_ne {k k' : String} (h : k ≠ k') :
    (c.store k output attachments now).live? k' ttl t = c.live? k' ttl t := by
  rw [live?, live?, store, Entries.get?_put_of_ne _ _ h]

/-- What is live after a step that only drops what has expired was live before it. -/
theorem live?_apply (ho : Entries.Ordered c.entries) {s : Step} (hs : s.Heeds ttls)
    (hw : s.writes = false) (hf : ttls.get? func = some ttl) (input : Json)
    (ht : ∀ u, s.time? = some u → u.val ≤ t.val) :
    (s.apply ttls c).live? (key func input) ttl t = c.live? (key func input) ttl t := by
  cases s with
  | store | clear => cases hw
  | lookup f i ttl' now =>
    refine live?_lookup ho (fun hk => ?_) (ht now rfl)
    obtain ⟨rfl, rfl⟩ := key_inj hk
    exact (hs ttl hf).symm
  | removeExpired now => exact live?_removeExpired ho hf input (ht now rfl)

theorem ordered_apply (ho : Entries.Ordered c.entries) (ttls : Entries UInt64) (s : Step) :
    Entries.Ordered (s.apply ttls c).entries := by
  cases s with
  | store f i o a now => exact ho.put _ _
  | lookup f i ttl now => exact ordered_lookup ho _ _ _
  | removeExpired now => exact ordered_removeExpired ho _ _
  | clear => exact .nil

theorem lastStored_concat_store {f : String} {i : Json} :
    LastStored (steps ++ [.store f i output attachments now]) func input e ↔
      if key f i = key func input then ⟨output, attachments, now⟩ = e
      else LastStored steps func input e := by
  rw [lastStored_concat]
  split
  · next hk =>
    obtain ⟨rfl, rfl⟩ := key_inj hk
    constructor
    · rintro (hs | ⟨hs, -⟩)
      · cases e
        cases hs
        rfl
      · exact absurd (.store output attachments now) hs
    · rintro rfl
      exact .inl rfl
  · next hk =>
    constructor
    · rintro (hs | ⟨-, h⟩)
      · cases hs
        exact absurd rfl hk
      · exact h
    · refine fun h => .inr ⟨?_, h⟩
      rintro ⟨⟩
      exact hk rfl

end

theorem Follows.apply {c : Cache} (h : Follows ttls steps c) {s : Step} (hs : s.Heeds ttls) :
    Follows ttls (steps ++ [s]) (s.apply ttls c) where
  ordered := ordered_apply h.ordered ttls s
  live := by
    intro func ttl hf input t ht e
    rw [List.forall_mem_append, List.forall_mem_singleton] at ht
    obtain ⟨hold, hnow⟩ := ht
    -- the time lies behind the step as well, so that all that the step dropped has expired by then
    have hbefore := h.live hf input hold e
    cases hw : s.writes with
    | false => rw [live?_apply h.ordered hs hw hf input hnow, hbefore,
        lastStored_concat_of_not_writes hw]
    | true =>
      cases s with
      | store f i output attachments now =>
        rw [lastStored_concat_store, Step.apply]
        split
        · next hk => rw [hk, live?_store]
        · next hk => rw [live?_store_of_ne hk, hbefore]
      | clear =>
        refine ⟨nofun, ?_⟩
        rintro ⟨hl, -⟩
        rcases lastStored_concat.1 hl with hs | ⟨hs, -⟩
        · cases hs
        · exact absurd .clear hs
      | lookup | removeExpired => cases hw

theorem follows_run (h : ∀ s ∈ steps, s.Heeds ttls) : Follows ttls steps (run ttls steps) := by
  induction steps using List.reverseRecOn with
  | nil => exact follows_empty ttls
  | append_singleton steps s ih =>
    rw [List.forall_mem_append, List.forall_mem_singleton] at h
    rw [run_concat]
    exact (ih h.1).apply h.2

/-! ### Looking up -/

/-- A course of steps at times that never decrease, are not negative and lie before the latest time,
in which all lookups heed the table. -/
structure Regular (ttls : Entries UInt64) (steps : List Step) : Prop where
  sorted : (steps.filterMap Step.time?).Pairwise fun t u => t.val ≤ u.val
  bounded : ∀ t ∈ steps.filterMap Step.time?, 0 ≤ t.val ∧ t.val < 9223372036854775807
  heeds : ∀ s ∈ steps, s.Heeds ttls

/-- What looking up finds after a course of steps. -/
def found (ttls : Entries UInt64) (steps : List Step) (func : String) (input : Json) (ttl : UInt64)
    (now : Instant) : Option (Json × List Attachment) :=
  ((run ttls steps).lookup (key func input) ttl now).1

section

variable {ttl : UInt64} {now : Instant} {before after : List Step}

theorem Regular.past (h : Regular ttls (before ++ .lookup func input ttl now :: after)) :
    (∀ s ∈ before, ∀ u, s.time? = some u → 0 ≤ u.val ∧ u.val ≤ now.val) ∧
      now.val < 9223372036854775807 ∧ ∀ s ∈ before, s.Heeds ttls := by
  have hb := h.bounded
  have hs := h.sorted
  rw [List.filterMap_append, List.forall_mem_append] at hb
  rw [List.filterMap_append, List.pairwise_append] at hs
  refine ⟨fun s hm u hu => ?_, (hb.2 now List.mem_cons_self).2, fun s hm => ?_⟩
  · have hu : u ∈ before.filterMap Step.time? := List.mem_filterMap.2 ⟨s, hm, hu⟩
    exact ⟨(hb.1 u hu).1, hs.2.2 u hu now List.mem_cons_self⟩
  · exact h.heeds s (List.mem_append_left _ hm)

/-- Wherever a function of the table is looked up in a course, the reply that was stored last is
found while its age lies below the time to live. Nothing is found otherwise, and what is found does
not depend on what was dropped before. -/
theorem lookup_finds_lastStored (h : Regular ttls (before ++ .lookup func input ttl now :: after))
    (hf : ttls.get? func = some ttl) :
    (∀ e, LastStored before func input e →
      found ttls before func input ttl now =
        if now.val - e.epoch.val < ttl.toNat * 1000 then some (e.output, e.attachments)
        else none) ∧
    ((∀ e, ¬ LastStored before func input e) → found ttls before func input ttl now = none) ∧
    found ttls before func input ttl now =
      found ttls (before.filter Step.writes) func input ttl now := by
  obtain ⟨ht, hn, hh⟩ := h.past
  have hpast : ∀ s ∈ before, ∀ u, s.time? = some u → u.val ≤ now.val :=
    fun s hs u hu => (ht s hs u hu).2
  have hw : ∀ s ∈ before.filter Step.writes, s ∈ before := fun _ => List.mem_of_mem_filter
  have hl := (follows_run hh).live hf input hpast
  have hl' := (follows_run fun s hs => hh s (hw s hs)).live hf input fun s hs => hpast s (hw s hs)
  simp only [found, lookup_fst]
  refine ⟨fun e he => ?_, fun hne => ?_, ?_⟩
  · have he0 : 0 ≤ e.epoch.val := by
      obtain ⟨b, a, rfl, -⟩ := he
      exact (ht _ (List.mem_append_right b List.mem_cons_self) _ rfl).1
    have hiff := Instant.lt_later_iff he0 hn ttl
    split
    · next hlt => rw [(hl e).2 ⟨he, hiff.2 hlt⟩, Option.map_some]
    · next hlt =>
      rw [Option.map_eq_none_iff, Option.eq_none_iff_forall_ne_some]
      intro e' he'
      obtain ⟨hs, hx⟩ := (hl e').1 he'
      cases hs.unique he
      exact hlt (hiff.1 hx)
  · rw [Option.map_eq_none_iff, Option.eq_none_iff_forall_ne_some]
    exact fun e he => hne e ((hl e).1 he).1
  · congr 1
    exact Option.ext fun e =>
      (hl e).trans ((and_congr_left fun _ => lastStored_filter_writes.symm).trans (hl' e).symm)

end

/-- Two replies for one input, and an eviction at a time when the first of them has expired. -/
def renewal : List Step :=
  [.store "time" .null (.string "then") [] ⟨0, by decide⟩,
   .store "time" .null (.string "now") [] ⟨5, by decide⟩, .removeExpired ⟨1001, by decide⟩]

def renewalTable : Entries UInt64 := [("time", 1)]

theorem regular_renewal :
    Regular renewalTable (renewal ++ [.lookup "time" .null 1 ⟨1004, by decide⟩]) where
  sorted := by decide
  bounded := by decide
  heeds := by
    simp only [renewal, List.cons_append, List.nil_append, List.forall_mem_cons]
    refine ⟨trivial, trivial, trivial, ?_, List.forall_mem_nil _⟩
    intro ttl h
    cases h
    rfl

theorem lookup_finds_lastStored_renewal :
    Regular renewalTable (renewal ++ [.lookup "time" .null 1 ⟨1004, by decide⟩]) ∧
      renewalTable.get? "time" = some 1 ∧
      found renewalTable renewal "time" .null 1 ⟨1004, by decide⟩ =
        some (.string "now", []) := by
  refine ⟨regular_renewal, rfl, ?_⟩
  have hs : LastStored renewal "time" .null ⟨.string "now", [], ⟨5, by decide⟩⟩ :=
    ⟨[.store "time" .null (.string "then") [] ⟨0, by decide⟩],
     [.removeExpired ⟨1001, by decide⟩],
      rfl, List.forall_mem_singleton.2 nofun⟩
  rw [(lookup_finds_lastStored regular_renewal rfl).1 _ hs]
  exact if_pos (by decide)

end RemoteCall.Cache
