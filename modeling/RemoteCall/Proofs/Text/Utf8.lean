import RemoteCall.Proofs.Text.Cut
import RemoteCall.Text.Utf8

/-! Reading back the bytes of a text, and finding a text of ASCII characters among the bytes of
another. -/

namespace RemoteCall.Text.Utf8

theorem step_within {low high acc b : Nat} (owed : Nat) (h : low ≤ b ∧ b ≤ high) :
    step (.within (owed + 1) low high acc) b =
      ([], .within owed 0x80 0xBF (acc * 64 + (b - 0x80))) := by
  simp [step, h]

theorem step_last {low high acc b : Nat} (h : low ≤ b ∧ b ≤ high) :
    step (.within 0 low high acc) b = ([some (Char.ofNat (acc * 64 + (b - 0x80)))], .start) := by
  simp [step, h]

theorem step_start_two {n : Nat} (h : 0x80 ≤ n) (hn : n < 0x800) :
    step .start (0xC0 + n / 64) = ([], .within 0 0x80 0xBF (n / 64)) := by
  have h₁ : ¬ 0xC0 + n / 64 < 0x80 := by omega
  have h₂ : 0xC2 ≤ 0xC0 + n / 64 ∧ 0xC0 + n / 64 ≤ 0xDF := by omega
  simp [step, lead, h₁, h₂]

/-- The first of three bytes narrows the second to where the number is neither small enough for two
bytes nor a surrogate. -/
theorem step_start_three {n : Nat} (h : 0x800 ≤ n)
    (hn : n < 0xD800 ∨ 0xDFFF < n ∧ n < 0x10000) :
    ∃ low high, step .start (0xE0 + n / 4096) = ([], .within 1 low high (n / 4096)) ∧
      low ≤ 0x80 + n / 64 % 64 ∧ 0x80 + n / 64 % 64 ≤ high := by
  have h₁ : ¬ 0xE0 + n / 4096 < 0x80 := by omega
  have h₂ : ¬ (0xC2 ≤ 0xE0 + n / 4096 ∧ 0xE0 + n / 4096 ≤ 0xDF) := by omega
  by_cases h₃ : n / 4096 = 0
  · exact ⟨0xA0, 0xBF, by simp [step, lead, h₃], by omega, by omega⟩
  · by_cases h₄ : n / 4096 = 13
    · exact ⟨0x80, 0x9F, by simp [step, lead, h₄], by omega, by omega⟩
    · have h₅ : ¬ 0xE0 + n / 4096 = 0xED := by omega
      have h₆ : 0xE1 ≤ 0xE0 + n / 4096 ∧ 0xE0 + n / 4096 ≤ 0xEF := by omega
      exact ⟨0x80, 0xBF, by simp [step, lead, h₁, h₂, h₃, h₅, h₆], by omega, by omega⟩

/-- The first of four bytes narrows the second to where the number is neither small enough for three
bytes nor past the last scalar. -/
theorem step_start_four {n : Nat} (h : 0x10000 ≤ n) (hn : n < 0x110000) :
    ∃ low high, step .start (0xF0 + n / 262144) = ([], .within 2 low high (n / 262144)) ∧
      low ≤ 0x80 + n / 4096 % 64 ∧ 0x80 + n / 4096 % 64 ≤ high := by
  have hq : n / 262144 = 0 ∨ n / 262144 = 1 ∨ n / 262144 = 2 ∨ n / 262144 = 3 ∨
      n / 262144 = 4 := by omega
  rcases hq with h₀ | h₁ | h₂ | h₃ | h₄
  · exact ⟨0x90, 0xBF, by simp [step, lead, h₀], by omega, by omega⟩
  · exact ⟨0x80, 0xBF, by simp [step, lead, h₁], by omega, by omega⟩
  · exact ⟨0x80, 0xBF, by simp [step, lead, h₂], by omega, by omega⟩
  · exact ⟨0x80, 0xBF, by simp [step, lead, h₃], by omega, by omega⟩
  · exact ⟨0x80, 0x8F, by simp [step, lead, h₄], by omega, by omega⟩

theorem toNat_valid (c : Char) :
    c.toNat < 0xD800 ∨ 0xDFFF < c.toNat ∧ c.toNat < 0x110000 := c.valid

theorem scanFrom_byte {n : Nat} (h : n < 256) (q : State) (bs : List UInt8) :
    scanFrom q (UInt8.ofNat n :: bs) = (step q n).1 ++ scanFrom (step q n).2 bs := by
  have hn : (UInt8.ofNat n).toNat = n := Nat.mod_eq_of_lt h
  cases q <;> simp only [scanFrom, hn]

theorem scanFrom_silent {n : Nat} {q q' : State} (hs : step q n = ([], q')) (h : n < 256)
    (bs : List UInt8) : scanFrom q (UInt8.ofNat n :: bs) = scanFrom q' bs := by
  rw [scanFrom_byte h, hs]
  rfl

theorem scanFrom_last {n m : Nat} {c : Char} (hn : n < 0x40) (hm : m * 64 + n = c.toNat)
    (bs : List UInt8) :
    scanFrom (.within 0 0x80 0xBF m) (UInt8.ofNat (0x80 + n) :: bs) =
      some c :: scanFrom .start bs := by
  rw [scanFrom_byte (by omega), step_last (by omega), Nat.add_sub_cancel_left, hm, Char.ofNat_toNat]
  rfl

theorem scanFrom_within {n m low high owed : Nat} (hn : n < 0x40)
    (h : low ≤ 0x80 + n ∧ 0x80 + n ≤ high) (bs : List UInt8) :
    scanFrom (.within (owed + 1) low high m) (UInt8.ofNat (0x80 + n) :: bs) =
      scanFrom (.within owed 0x80 0xBF (m * 64 + n)) bs := by
  have hs : step (.within (owed + 1) low high m) (0x80 + n) =
      ([], .within owed 0x80 0xBF (m * 64 + (0x80 + n - 0x80))) := step_within owed h
  rw [Nat.add_sub_cancel_left] at hs
  exact scanFrom_silent hs (by omega) bs

theorem scanFrom_encodeChar (c : Char) (bs : List UInt8) :
    scanFrom .start (encodeChar c ++ bs) = some c :: scanFrom .start bs := by
  have hv := toNat_valid c
  simp only [encodeChar, show Nat.pow 64 0 = 1 from rfl, show Nat.pow 64 1 = 64 from rfl,
    show Nat.pow 64 2 = 4096 from rfl, Nat.div_one]
  split
  · next h =>
    rw [List.cons_append, List.nil_append, scanFrom_byte (by omega)]
    simp [step, lead, h]
  · split
    · next h₁ h₂ =>
      simp only [List.cons_append, List.nil_append]
      rw [scanFrom_silent (step_start_two (by omega) h₂) (by omega),
        scanFrom_last (c := c) (by omega) (by omega)]
    · split
      · next h₁ h₂ h₃ =>
        obtain ⟨low, high, hl, hb⟩ := step_start_three (n := c.toNat) (by omega) (by omega)
        simp only [List.cons_append, List.nil_append]
        rw [scanFrom_silent hl (by omega), scanFrom_within (by omega) hb,
          scanFrom_last (c := c) (by omega) (by omega)]
      · next h₁ h₂ h₃ =>
        obtain ⟨low, high, hl, hb⟩ := step_start_four (n := c.toNat) (by omega) (by omega)
        simp only [List.cons_append, List.nil_append]
        rw [scanFrom_silent hl (by omega), scanFrom_within (by omega) hb,
          scanFrom_within (by omega) (by omega), scanFrom_last (c := c) (by omega) (by omega)]

theorem scan_encode (cs : List Char) : scan (encode cs) = cs.map some := by
  induction cs with
  | nil => rfl
  | cons c cs ih => exact (scanFrom_encodeChar c (encode cs)).trans (congrArg (some c :: ·) ih)

@[simp] theorem decodeLossy_encode (cs : List Char) : decodeLossy (encode cs) = cs := by
  rw [decodeLossy, scan_encode, List.map_map]
  exact List.map_id cs

@[simp] theorem decode?_encode (cs : List Char) : decode? (encode cs) = some cs := by
  rw [decode?, scan_encode]
  induction cs with
  | nil => rfl
  | cons c cs ih => simp [ih]

/-! ### Occurrences of ASCII text -/

@[simp] theorem encode_nil : encode [] = [] := rfl

theorem encode_cons (c : Char) (cs : List Char) : encode (c :: cs) = encodeChar c ++ encode cs :=
  List.flatMap_cons

theorem encode_append (as cs : List Char) : encode (as ++ cs) = encode as ++ encode cs :=
  List.flatMap_append

theorem encodeChar_of_ascii {c : Char} (h : c.toNat < 0x80) :
    encodeChar c = [UInt8.ofNat c.toNat] := by
  simp [encodeChar, h]

theorem le_of_mem_encodeChar {c : Char} (h : ¬ c.toNat < 0x80) {x : UInt8}
    (hx : x ∈ encodeChar c) : 0x80 ≤ x.toNat := by
  have hv := toNat_valid c
  simp only [encodeChar, h, if_false] at hx
  split at hx
  · simp only [List.mem_cons, List.not_mem_nil, or_false] at hx
    rcases hx with rfl | rfl <;> simp <;> omega
  · split at hx <;> simp only [List.mem_cons, List.not_mem_nil, or_false] at hx
    · rcases hx with rfl | rfl | rfl <;> simp <;> omega
    · rcases hx with rfl | rfl | rfl | rfl <;> simp <;> omega

theorem eq_of_encodeChar_eq_cons {a c : Char} {xs : List UInt8} (ha : a.toNat < 0x80)
    (h : encodeChar c = UInt8.ofNat a.toNat :: xs) : c = a := by
  have hn : (UInt8.ofNat a.toNat).toNat = a.toNat := Nat.mod_eq_of_lt (by omega)
  by_cases hc : c.toNat < 0x80
  · rw [encodeChar_of_ascii hc, List.cons.injEq] at h
    have hm : (UInt8.ofNat c.toNat).toNat = c.toNat := Nat.mod_eq_of_lt (by omega)
    have ht : c.toNat = a.toNat := by rw [← hm, h.1, hn]
    rw [← Char.ofNat_toNat c, ht, Char.ofNat_toNat]
  · have hx := le_of_mem_encodeChar hc (x := UInt8.ofNat a.toNat) (by simp [h])
    omega

theorem encodeChar_ne_nil (c : Char) : encodeChar c ≠ [] := by
  simp only [encodeChar]
  split <;> try split <;> try split
  all_goals exact List.cons_ne_nil _ _

theorem prefix_of_encode {as cs : List Char} (ha : ∀ a ∈ as, a.toNat < 0x80)
    (h : encode as <+: encode cs) : as <+: cs := by
  induction as generalizing cs with
  | nil => exact List.nil_prefix
  | cons a as ih =>
    have ha₁ := ha a List.mem_cons_self
    rw [encode_cons, encodeChar_of_ascii ha₁] at h
    cases cs with
    | nil => simp at h
    | cons c cs =>
      obtain ⟨x, xs, hx⟩ := List.exists_cons_of_ne_nil (encodeChar_ne_nil c)
      rw [encode_cons, hx] at h
      obtain ⟨rfl, ht⟩ := List.cons_prefix_cons.1 h
      obtain rfl := eq_of_encodeChar_eq_cons ha₁ hx
      rw [encodeChar_of_ascii ha₁, List.cons.injEq] at hx
      rw [← hx.2] at ht
      exact List.cons_prefix_cons.2 ⟨rfl, ih (fun b hb => ha b (List.mem_cons_of_mem c hb)) ht⟩

/-- The bytes of an ASCII text occur among those of another only where it occurs itself. -/
theorem infix_of_encode {as cs : List Char} (ha : ∀ a ∈ as, a.toNat < 0x80)
    (h : encode as <:+: encode cs) : as <:+: cs := by
  cases as with
  | nil => exact List.nil_infix
  | cons a as =>
    have ha₁ := ha a List.mem_cons_self
    have he : encode (a :: as) = UInt8.ofNat a.toNat :: encode as := by
      rw [encode_cons, encodeChar_of_ascii ha₁]
      rfl
    induction cs with
    | nil => simp [he] at h
    | cons c cs ih =>
      by_cases hp : encode (a :: as) <+: encode (c :: cs)
      · exact (prefix_of_encode ha hp).isInfix
      · apply List.infix_cons
        apply ih
        rw [encode_cons c] at h hp
        by_cases hc : c.toNat < 0x80
        · rw [encodeChar_of_ascii hc] at h hp
          exact (List.infix_cons_iff.1 h).resolve_left hp
        · rw [he] at h ⊢
          refine infix_of_infix_append (fun hm => ?_) h
          have hx := le_of_mem_encodeChar hc hm
          have hn : (UInt8.ofNat a.toNat).toNat = a.toNat := Nat.mod_eq_of_lt (by omega)
          omega

theorem mem_of_mem_encode {a : Char} {cs : List Char} (ha : a.toNat < 0x80)
    (h : UInt8.ofNat a.toNat ∈ encode cs) : a ∈ cs := by
  obtain ⟨l, r, he⟩ := List.append_of_mem h
  have hi : encode [a] <:+: encode cs := by
    rw [he, encode_cons, encodeChar_of_ascii ha]
    exact ⟨l, r, by simp⟩
  have hs : [a] <:+: cs := infix_of_encode (by simpa using ha) hi
  exact hs.subset List.mem_cons_self

end RemoteCall.Text.Utf8
