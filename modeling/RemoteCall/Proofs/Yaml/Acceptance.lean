import RemoteCall.Proofs.Json.Order
import RemoteCall.Proofs.Json.RoundTrip
import RemoteCall.Proofs.Yaml.RoundTrip

/-!
Which printed values are read at all. The reader stops at the first key whose colon is too far from
its start, and at once where a character may not stand in a document; nothing else stops it.
-/

namespace RemoteCall.Yaml

variable {n : Nat} {v : Json} {s : String}

namespace Lexer

variable {p : Progress} {m : Mark} {cs w : List Char} {c : Char} {t : Token}

/-- There is an error from here on. -/
def Fails (s : Lexer) : Prop := ∃ e, s.Yields (.error e)

theorem Fails.of_reaches {s t : Lexer} (h : Fails t) (hr : s.Reaches t) : Fails s := by
  obtain ⟨e, he⟩ := h
  exact ⟨e, hr _ he⟩

/-! ### Long keys -/

/-- At the colon of a long key the place where the key began is no longer remembered. -/
theorem fails_colon (hw : 1024 < w.length) (hi : p.indent ≤ m.column) (hc : c = ' ' ∨ c = '\n')
    (cs : List Char) :
    Fails (before (p.add [t]) (m.along w.length) (':' :: c :: cs) (noted p m true) false) := by
  have hs : Solid (':' :: c :: cs) := solid_sign (by decide) _
  have hstale (r : Bool) : isStale (m.along w.length) ⟨r, p.made.length, m⟩ = true := by
    simp [isStale, hw]
  -- At the column of the open block nothing but a key can stand, and its loss is an error by
  -- itself.
  by_cases hr : p.indent = m.column
  · have hd : dropStale (m.along w.length) (noted p m true) = .error .danglingKey := by
      simp [noted, dropStale, hstale, hr]
    refine ⟨.danglingKey, .of_expired ?_⟩
    rw [skipGaps_eq (skip_solid hs _ _ _) (glyphsFrom_ne_nil _ _) hs]
    simp [expire, before, mark, hd, bind, Except.bind, pure, Except.pure]
  · have hd : dropStale (m.along w.length) (noted p m true) = .ok none := by
      simp [noted, dropStale, hstale, hr]
    have hp : peek (glyphsFrom (m.along w.length) (':' :: c :: cs)) 0 ≠ terminator :=
      (by decide : ':' ≠ terminator)
    refine ⟨.indicator, .of_error (.of_solid hs hd) hp ?_⟩
    rw [unroll_before (by simp; omega)]
    -- With nothing remembered the colon would begin an entry of its own, but not on this line.
    exact dispatch_colon hc _ _ _

/-! ### Blocks -/

/-- Wherever the value stands, the lexer does not get over it. -/
def Blocked (v : Json) : Prop :=
  ∀ (n : Nat) (p : Progress) (m : Mark) (fresh : Bool) (tail : List Char), p.indent < m.column →
    (isBlock v = true → m.column = n ∧ fresh = true) →
    Fails (before p m (valueChars n v ++ tail) none fresh)

/-- An entry of a block over which the lexer does not get. -/
structure Halts (n : Nat) (cs : List Char) : Prop where
  solid : ∀ rest, Solid (cs ++ rest)
  fails : ∀ {p : Progress} {m : Mark} (tail : List Char), p.indent ≤ n → m.column = n →
    Fails (before p m (cs ++ tail) none true)

theorem halts_item (hv : Blocked v) (n : Nat) : Halts n (itemChars n v) := by
  refine ⟨solid_item n v, fun {p m} tail hi hm => ?_⟩
  subst hm
  obtain ⟨m', hr, hn, hb⟩ := reaches_item hi v tail
  refine .of_reaches (hv _ _ m' true tail ?_ fun h => ⟨hb h, rfl⟩) hr
  rw [Progress.add_indent, enter_indent hi]
  omega

theorem halts_entry {e : String × Json} (hk : (textChars e.1).length ≤ 1024) (hv : Blocked e.2)
    (n : Nat) : Halts n (entryChars n e) := by
  refine ⟨solid_entry n e, fun {p m} tail hi hm => ?_⟩
  subst hm
  obtain ⟨m', fresh, hr, hn, hb⟩ := reaches_entry hk hi tail
  refine .of_reaches (hv _ _ m' fresh tail ?_ hb) hr
  rw [Progress.add_indent, enter_indent hi]
  omega

theorem halts_long_key {e : String × Json} (hk : 1024 < (textChars e.1).length) (n : Nat) :
    Halts n (entryChars n e) := by
  refine ⟨solid_entry n e, fun {p m} tail hi hm => ?_⟩
  subst hm
  obtain ⟨c, ds, hds, hc⟩ :=
    entryGap_append m.column e.2 (valueChars (m.column + step) e.2 ++ tail)
  rw [entryChars, List.append_assoc, List.cons_append, List.append_assoc, hds]
  exact .of_reaches (fails_colon hk hi hc ds) (.key_text (written_text e.1) hc hi ds true)

section

variable {α : Type} {chars : α → List Char} {tokens : α → List Token} {x z : α}
    {xs : List α}

/-- The lexer gets no further than an entry that halts it, be it the first such or not. -/
theorem fails_block (h : ∀ y ∈ x :: xs, Enters n t (chars y) (tokens y) ∨ Halts n (chars y))
    (hz : z ∈ x :: xs) (hf : Halts n (chars z)) (hi : p.indent ≤ n) (hm : m.column = n)
    (tail : List Char) :
    Fails (before p m (chars x ++ (linesOf n chars xs ++ tail)) none true) := by
  -- The place of the lexer stays open: past an entry that it gets over it stands before the next.
  induction xs generalizing x p m with
  | nil =>
    rw [List.mem_singleton.1 hz] at hf
    exact hf.fails _ hi hm
  | cons y ys ih =>
    obtain ⟨hx, hs⟩ := List.forall_mem_cons.1 h
    rcases List.mem_cons.1 hz with rfl | hz
    · exact hf.fails _ hi hm
    · rcases hx with he | hx
      · have hy := (hs y List.mem_cons_self).elim Enters.solid Halts.solid
        obtain ⟨m', hm', ht⟩ := he.takes hi hm
          (.line (hy (linesOf n chars ys ++ tail)) (.inl (Int.le_refl n)))
        rw [linesOf_cons, List.append_assoc, List.append_assoc]
        refine .of_reaches (.of_reaches (ih hs hz ?_ ?_) (.over_padding (hy _) n)) ht
        · exact Int.le_of_eq (enter_indent hi t)
        · rw [Mark.along_column, hm', Nat.zero_add]
      · exact hx.fails _ hi hm

end

theorem Blocked.array {vs : List Json} (h : ∀ w ∈ vs, Taken w ∨ Blocked w) (hv : v ∈ vs)
    (hb : Blocked v) : Blocked (.array vs) := by
  cases vs with
  | nil => cases hv
  | cons w vs =>
    intro n p m fresh tail hi hn
    obtain ⟨hm, rfl⟩ := hn rfl
    have hs : ∀ u ∈ w :: vs, Enters n .blockSequence (itemChars n u) (itemTokens u) ∨
        Halts n (itemChars n u) :=
      fun u hu => (h u hu).imp (enters_item · n) (halts_item · n)
    rw [valueChars_array, List.append_assoc]
    exact fails_block hs hv (halts_item hb n) (by omega) hm tail

/-- The lexer gets over an entry wherever it stands. -/
def EntryTaken (e : String × Json) : Prop := (textChars e.1).length ≤ 1024 ∧ Taken e.2

/-- The lexer gets over an entry nowhere. -/
def EntryBlocked (e : String × Json) : Prop := 1024 < (textChars e.1).length ∨ Blocked e.2

theorem EntryBlocked.halts {e : String × Json} (h : EntryBlocked e) (n : Nat) :
    Halts n (entryChars n e) := by
  by_cases hk : 1024 < (textChars e.1).length
  · exact halts_long_key hk n
  · exact halts_entry (Nat.le_of_not_lt hk) (h.resolve_left hk) n

theorem Blocked.object {es : List (String × Json)} {e : String × Json}
    (h : ∀ d ∈ es, EntryTaken d ∨ EntryBlocked d) (he : e ∈ es) (hb : EntryBlocked e) :
    Blocked (.object es) := by
  cases es with
  | nil => cases he
  | cons d es =>
    intro n p m fresh tail hi hn
    obtain ⟨hm, rfl⟩ := hn rfl
    have hs : ∀ c ∈ d :: es, Enters n .blockMapping (entryChars n c) (entryTokens c) ∨
        Halts n (entryChars n c) :=
      fun c hc => (h c hc).imp (fun hp => enters_entry hp.1 hp.2 n) (EntryBlocked.halts · n)
    rw [valueChars_object, List.append_assoc]
    exact fails_block hs he (hb.halts n) (by omega) hm tail

end Lexer

open Lexer

/-! ### Characters -/

theorem mem_textChars {c : Char} (hc : c ∈ s.toList) (hq : quotedChar c = [c]) :
    c ∈ textChars s := by
  rw [textChars]
  split
  · exact hc
  · have hm : c ∈ s.toList.flatMap quotedChar :=
      List.mem_flatMap.2 ⟨c, hc, by simp [hq]⟩
    simp [quote, hm]

theorem Clean.of_allowed (h : Allowed (textChars s)) : Clean s := by
  have hv : Yaml.isAllowed '\uFFFE' = false ∧ Yaml.isAllowed '\uFFFF' = false := by decide
  refine ⟨fun hm => ?_, fun hm => ?_⟩
  · cases hv.1.symm.trans (h _ (mem_textChars hm rfl))
  · cases hv.2.symm.trans (h _ (mem_textChars hm rfl))

theorem Allowed.of_linesOf {α : Type} {chars : α → List Char} {x : α} {xs : List α}
    (h : Allowed (chars x ++ linesOf n chars xs)) : ∀ y ∈ x :: xs, Allowed (chars y) := by
  obtain ⟨hx, hxs⟩ := List.forall_mem_append.1 h
  refine List.forall_mem_cons.2 ⟨hx, fun y hy c hc => ?_⟩
  exact hxs c (List.mem_flatMap.2 ⟨y, hy, List.mem_append_right _ hc⟩)

theorem Allowed.of_item (h : Allowed (itemChars n v)) : Allowed (valueChars (n + step) v) :=
  fun c hc => h c (List.mem_cons_of_mem _ (List.mem_append_right _ hc))

theorem Allowed.of_entry {e : String × Json} (h : Allowed (entryChars n e)) :
    Clean e.1 ∧ Allowed (valueChars (n + step) e.2) := by
  obtain ⟨hk, hv⟩ := List.forall_mem_append.1 h
  exact ⟨.of_allowed hk, fun c hc => hv c (List.mem_cons_of_mem _ (List.mem_append_right _ hc))⟩

/-! ### Values -/

theorem portable_or_blocked_array {vs : List Json} (h : ∀ v ∈ vs, Portable v ∨ Blocked v) :
    Portable (.array vs) ∨ Blocked (.array vs) := by
  by_cases hp : ∀ v ∈ vs, Portable v
  · exact .inl (.array hp)
  · obtain ⟨v, hv, hn⟩ : ∃ v ∈ vs, ¬ Portable v := by simpa using hp
    have hb : Blocked v := (h v hv).resolve_left hn
    exact .inr (.array (fun w hw => (h w hw).imp_left Portable.taken) hv hb)

theorem portable_or_blocked_object {es : List (String × Json)} (hk : ∀ e ∈ es, Clean e.1)
    (h : ∀ e ∈ es, Portable e.2 ∨ Blocked e.2) :
    Portable (.object es) ∨ Blocked (.object es) := by
  have hs :
    ∀ e ∈ es, ((textChars e.1).length ≤ 1024 ∧ Portable e.2) ∨ EntryBlocked e := by
    intro e he
    by_cases hl : 1024 < (textChars e.1).length
    · exact .inr (.inl hl)
    · exact (h e he).imp (⟨Nat.le_of_not_lt hl, ·⟩) .inr
  by_cases hp : ∀ e ∈ es, (textChars e.1).length ≤ 1024 ∧ Portable e.2
  · exact .inl (.object (fun e he => ⟨hk e he, (hp e he).1⟩) fun e he => (hp e he).2)
  · obtain ⟨e, he, hn⟩ :
      ∃ e ∈ es, ¬ ((textChars e.1).length ≤ 1024 ∧ Portable e.2) := by
      simpa only [Classical.not_forall, exists_prop] using hp
    have hb : EntryBlocked e := (hs e he).resolve_left hn
    exact .inr (.object (fun d hd => (hs d hd).imp_left fun h => ⟨h.1, h.2.taken⟩) he hb)

/-- Where all characters may stand in a document, a value that is not portable has a key that is too
long, and the lexer stops there. -/
theorem portable_or_blocked (v : Json) :
    ∀ n, Allowed (valueChars n v) → Portable v ∨ Blocked v := by
  induction v using Json.induction with
  | null => exact fun _ _ => .inl .null
  | bool b => exact fun _ _ => .inl (.bool b)
  | number x => exact fun _ _ => .inl (.number x)
  | string s => exact fun n h => .inl (.string (.of_allowed (List.forall_mem_append.1 h).1))
  | array items ih =>
    intro n h
    refine portable_or_blocked_array ?_
    cases items with
    | nil => exact List.forall_mem_nil _
    | cons v vs =>
      rw [valueChars_array] at h
      exact fun w hw => ih w hw _ (h.of_linesOf w hw).of_item
  | object entries ih =>
    intro n h
    cases entries with
    | nil => exact .inl (.object (List.forall_mem_nil _) (List.forall_mem_nil _))
    | cons e es =>
      rw [valueChars_object] at h
      have he : ∀ d ∈ e :: es, Clean d.1 ∧ Allowed (valueChars (n + step) d.2) := fun d hd =>
        (h.of_linesOf d hd).of_entry
      exact portable_or_blocked_object (fun d hd => (he d hd).1) fun d hd => ih d hd _ (he d hd).2

/-- What is printed is read if the value is portable, and otherwise not. -/
theorem parse_chars_iff (hd : v.depth ≤ depthLimit) :
    (∃ w, parse (chars v) = .ok w) ↔ Portable v := by
  refine ⟨fun ⟨w, hw⟩ => ?_, fun h => ?_⟩
  · simp only [parse, tokens, Outcome.bind_eq_ok_iff] at hw
    obtain ⟨ts, ⟨gs, hg, hr⟩, -⟩ := hw
    have ha : Allowed (chars v) := List.all_eq_true.1 (all_isAllowed_of_glyphs hg)
    rw [glyphs_chars ha] at hg
    cases hg
    refine (portable_or_blocked v 0 (chars_eq v ▸ ha)).resolve_right fun hb => ?_
    obtain ⟨e, he⟩ := hb 0 .none .start true [] (by decide) fun _ => ⟨rfl, rfl⟩
    rw [List.append_nil, ← chars_eq] at he
    cases hr.symm.trans (he _ (Nat.lt_succ_of_le (skipGaps_length_le _)))
  · obtain ⟨w, hw, -⟩ := h.parse_chars hd
    exact ⟨w, hw⟩

/-- What is printed of a text that was read is itself read exactly if the value is portable. -/
theorem reads_printed_iff_portable {cs : List Char} (h : Json.parse cs = .ok v) :
    (∃ w, parse (text v).toList = .ok w) ↔ Portable v := by
  rw [text, String.toList_ofList]
  exact parse_chars_iff (Nat.le_succ_of_le (Json.fits_parse h).2)

theorem reads_printed_iff_portable_deceptive :
    Json.parse deceptive.chars = .ok deceptive ∧
      ((∃ w, parse (text deceptive).toList = .ok w) ↔ Portable deceptive) ∧
      ∃ w, parse (text deceptive).toList = .ok w := by
  have h : Json.parse deceptive.chars = .ok deceptive :=
    Json.parse_chars (by simp [deceptive]) ordered_deceptive (by decide)
  have hr := reads_printed_iff_portable h
  exact ⟨h, hr, hr.2 portable_deceptive⟩

/-- An object whose only key is too long to be read as one. -/
def longKeyed : Json := .object [(String.ofList (List.replicate 1025 'a'), .null)]

theorem not_portable_longKeyed : ¬ Portable longKeyed := by
  intro h
  have hl := length_le_textChars (String.ofList (List.replicate 1025 'a'))
  rw [String.toList_ofList, List.length_replicate] at hl
  simp only [longKeyed, portable_object, List.forall_mem_singleton] at h
  omega

/-- Two texts that are read as JSON, and whose values are printed as what is not read as YAML. -/
theorem printed_unread :
    (Json.parse ['"', '\uFFFE', '"'] = .ok (.string "\uFFFE") ∧
      ¬ ∃ w, parse (text (.string "\uFFFE")).toList = .ok w) ∧
    (Json.parse longKeyed.chars = .ok longKeyed ∧
      ¬ ∃ w, parse (text longKeyed).toList = .ok w) := by
  have hs : ¬ Portable (.string "\uFFFE") := fun h => (portable_string.1 h).noSwapped (by decide)
  have hw : longKeyed.Whole := .object (List.forall_mem_singleton.2 .null)
  have ho : longKeyed.Ordered :=
    .object (List.pairwise_singleton _ _) (List.forall_mem_singleton.2 .null)
  refine ⟨⟨?_, ?_⟩, Json.parse_chars hw ho (by decide), ?_⟩
  · exact Json.parse_chars (v := .string "\uFFFE") (.string _) (.string _) (Nat.zero_le _)
  · rwa [text, String.toList_ofList, parse_chars_iff (Nat.zero_le _)]
  · rw [text, String.toList_ofList, parse_chars_iff (by decide)]
    exact not_portable_longKeyed

end RemoteCall.Yaml
