import RemoteCall.Proofs.Yaml.Content

/-!
Reading back the YAML text of a value. The characters of the text are those that YAML allows, so the
lexer, the composer and the reader of nodes get it as it was printed.
-/

namespace RemoteCall.Yaml

variable {c : Char} {s : String} {v : Json}

/-! ### Characters -/

theorem isAllowed_of_raw (h : needsEscape c = false) (hs : c ≠ '\uFFFE') (hl : c ≠ '\uFFFF') :
    isAllowed c = true := by
  have hv : c.toNat < 0xD800 ∨ 0xDFFF < c.toNat ∧ c.toNat < 0x110000 := c.valid
  have hs : c.toNat ≠ 0xFFFE := fun hn => hs (Char.toNat_inj.1 hn)
  have hl : c.toNat ≠ 0xFFFF := fun hn => hl (Char.toNat_inj.1 hn)
  simp only [needsEscape, Text.isControl, Bool.or_eq_false_iff, Bool.and_eq_false_iff,
    decide_eq_false_iff_not] at h
  simp only [isAllowed, Bool.or_eq_true, Bool.and_eq_true, beq_iff_eq, decide_eq_true_eq]
  omega

/-- Text in which every character may stand in a document. -/
def Allowed (cs : List Char) : Prop := ∀ c ∈ cs, isAllowed c = true

instance (cs : List Char) : Decidable (Allowed cs) :=
  decidable_of_iff (cs.all isAllowed = true) List.all_eq_true

theorem Allowed.append {cs ds : List Char} (h : Allowed cs) (hd : Allowed ds) :
    Allowed (cs ++ ds) :=
  List.forall_mem_append.2 ⟨h, hd⟩

theorem Allowed.cons {cs : List Char} (hc : isAllowed c = true) (h : Allowed cs) :
    Allowed (c :: cs) :=
  List.forall_mem_cons.2 ⟨hc, h⟩

theorem allowed_padding (n : Nat) : Allowed (padding n) := by
  intro c hc
  rw [eq_of_mem_padding hc]
  decide

theorem Clean.isAllowed (h : Clean s) (hc : c ∈ s.toList) (hr : needsEscape c = false) :
    isAllowed c = true :=
  isAllowed_of_raw hr (fun he => h.noSwapped (he ▸ hc)) (fun he => h.noLast (he ▸ hc))

theorem Clean.allowed (h : Clean s) : Allowed (textChars s) := by
  rw [textChars]
  split
  · next hp =>
    exact fun c hc => h.isAllowed hc ((safe_of_isPlainSafe hp).raw c hc).1
  · have hv : Allowed ('"' :: escapeAlphabet) := by decide
    refine .append (.cons (by decide) ?_) (.cons (by decide) (List.forall_mem_nil _))
    intro c hc
    obtain ⟨d, hd, hc⟩ := List.mem_flatMap.1 hc
    rcases mem_quotedChar hc with hc | ⟨rfl, hr⟩
    · exact hv c (List.mem_cons_of_mem _ hc)
    · exact h.isAllowed hd hr

theorem allowed_number (x : Json.Number) : Allowed x.chars := by
  have hv : Allowed wordAlphabet := by decide
  exact fun c hc => hv c (mem_wordAlphabet (Json.isFractionChar_of_mem_chars hc))

theorem allowed_words {cs : List Char} (h : cs ∈ words) : Allowed (cs ++ ['\n']) := by
  have hv : ∀ cs ∈ words, Allowed (cs ++ ['\n']) := by decide
  exact hv cs h

theorem allowed_linesOf {α : Type} {chars : α → List Char} {xs : List α} (n : Nat)
    (h : ∀ x ∈ xs, Allowed (chars x)) : Allowed (linesOf n chars xs) := by
  intro c hc
  obtain ⟨x, hx, hc⟩ := List.mem_flatMap.1 hc
  exact (allowed_padding n).append (h x hx) c hc

theorem allowed_item (h : ∀ n, Allowed (valueChars n v)) (n : Nat) : Allowed (itemChars n v) :=
  .cons (by decide) ((allowed_padding _).append (h _))

theorem allowed_entry {e : String × Json} (hk : Clean e.1) (h : ∀ n, Allowed (valueChars n e.2))
    (n : Nat) : Allowed (entryChars n e) := by
  have hg : Allowed (entryGap n e.2) := by
    rw [entryGap]
    split
    · exact .cons (by decide) (allowed_padding _)
    · exact .cons (by decide) (List.forall_mem_nil _)
  exact hk.allowed.append (.cons (by decide) (hg.append (h _)))

theorem Portable.allowed (h : Portable v) : ∀ n, Allowed (valueChars n v) := by
  induction h with
  | null => exact fun _ => allowed_words (by decide : ['n', 'u', 'l', 'l'] ∈ words)
  | bool b =>
    intro _
    cases b with
    | true => exact allowed_words (by decide : ['t', 'r', 'u', 'e'] ∈ words)
    | false => exact allowed_words (by decide : ['f', 'a', 'l', 's', 'e'] ∈ words)
  | number x => exact fun _ => (allowed_number x).append (by decide)
  | string hs => exact fun _ => hs.allowed.append (by decide)
  | @array vs _ ih =>
    intro n
    cases vs with
    | nil => exact (by decide : Allowed ['[', ']', '\n'])
    | cons v vs =>
      obtain ⟨hv, hvs⟩ := List.forall_mem_cons.1 ih
      rw [valueChars_array]
      exact (allowed_item hv n).append (allowed_linesOf n fun w hw => allowed_item (hvs w hw) n)
  | @object es hk _ ih =>
    intro n
    cases es with
    | nil => exact (by decide : Allowed ['\x7b', '\x7d', '\n'])
    | cons e es =>
      obtain ⟨he, hes⟩ := List.forall_mem_cons.1 ih
      obtain ⟨hk, hks⟩ := List.forall_mem_cons.1 hk
      rw [valueChars_object]
      exact (allowed_entry hk.1 he n).append
        (allowed_linesOf n fun d hd => allowed_entry (hks d hd).1 (hes d hd) n)

/-! ### Documents -/

theorem glyphs_chars (h : Allowed (chars v)) :
    glyphs (chars v) = .ok (glyphsFrom .start (chars v)) := by
  refine glyphs_eq (List.all_eq_true.2 h) fun hm => ?_
  have hs := solid_value 0 v []
  rw [List.append_nil, ← chars_eq] at hs
  exact (hs _ hm).2.2.2 rfl

theorem Portable.tokens_chars (h : Portable v) :
    tokens (chars v) = .ok (tokensOf v ++ [.streamEnd]) := by
  rw [tokens, glyphs_chars (chars_eq v ▸ h.allowed 0)]
  exact h.run_chars (Nat.lt_succ_self _)

theorem Portable.parse_chars (h : Portable v) (hd : v.depth ≤ depthLimit) :
    ∃ w, parse (chars v) = .ok w ∧ (v.Whole → v.Ordered → w = v) := by
  obtain ⟨w, hw, he⟩ := toJson_nodeOf hd
  refine ⟨w, ?_, he⟩
  rw [parse, h.tokens_chars]
  simp only [bind, Except.bind, compose_tokensOf, hw]

/-- What is printed reads back as the same value, and gives the same compact text. -/
theorem parse_inverts_text (hw : v.Whole) (ho : v.Ordered) (hd : v.depth ≤ 127)
    (hp : Portable v) :
    parse (text v).toList = .ok v ∧ (parse (text v).toList).map Json.text = .ok v.text := by
  obtain ⟨w, hv, he⟩ := hp.parse_chars (Nat.le_succ_of_le hd)
  cases he hw ho
  rw [text, String.toList_ofList, hv]
  exact ⟨rfl, rfl⟩

/-- Texts that look like something else: a list, a date, null, the end of a document. -/
def deceptive : Json :=
  .object [
    ("- no", .array [.string "null", .string "...", .array [.string "12", .object [
      ("a: b", .string "line\nbreak # no")]], .object []]),
    ("2020-01-01", .string "~")]

theorem ordered_deceptive : deceptive.Ordered := by
  have h₀ : Entries.Ordered ([] : List (String × Json)) := .nil
  have h₁ (v : Json) : Entries.Ordered [("a: b", v)] := List.pairwise_singleton _ _
  have h₂ (v w : Json) : Entries.Ordered [("- no", v), ("2020-01-01", w)] :=
    List.pairwise_pair.2 (by decide : "- no" < "2020-01-01")
  simp [deceptive, h₀, h₁, h₂]

theorem portable_deceptive : Portable deceptive := by
  let texts := ["- no", "2020-01-01", "a: b", "null", "...", "12", "line\nbreak # no", "~"]
  have hv : ∀ s ∈ texts, ('\uFFFE' ∉ s.toList ∧ '\uFFFF' ∉ s.toList) ∧
    s.toList.length ≤ 170 := by
    decide
  have hs : ∀ s ∈ texts, Clean s ∧ (textChars s).length ≤ 1024 := by
    intro s hs
    obtain ⟨⟨h₁, h₂⟩, hl⟩ := hv s hs
    have := length_textChars_le s
    exact ⟨⟨h₁, h₂⟩, by omega⟩
  simp only [texts, List.forall_mem_cons] at hs
  simp [deceptive, hs]

theorem parse_inverts_text_deceptive :
    deceptive.Whole ∧ deceptive.Ordered ∧ deceptive.depth ≤ 127 ∧ Portable deceptive ∧
      parse (text deceptive).toList = .ok deceptive ∧
      (parse (text deceptive).toList).map Json.text = .ok deceptive.text := by
  have hw : deceptive.Whole := by simp [deceptive]
  have hd : deceptive.depth ≤ 127 := by decide
  exact ⟨hw, ordered_deceptive, hd, portable_deceptive,
    parse_inverts_text hw ordered_deceptive hd portable_deceptive⟩

end RemoteCall.Yaml
