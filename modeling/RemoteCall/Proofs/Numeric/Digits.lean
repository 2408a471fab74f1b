import RemoteCall.Json.Draft
import RemoteCall.Text.Literal

/-! Digits of natural numbers: what they look like, and that each way of reading them back yields
the number. -/

namespace RemoteCall.Numeric

open Text (hexDigits)

variable {radix : Nat}

theorem toDigits_concat (hr : 1 < radix) {n d : Nat} (hn : 0 < n) (hd : d < radix) :
    Nat.toDigits radix (radix * n + d) = Nat.toDigits radix n ++ [d.digitChar] := by
  rw [← Nat.toDigits_append_toDigits hr hn hd, Nat.toDigits_of_lt_base hd]

theorem mem_toDigits (hr : 1 < radix) {n : Nat} {c : Char} (h : c ∈ Nat.toDigits radix n) :
    ∃ d < radix, d.digitChar = c := by
  induction n using Nat.base_induction radix hr with
  | single d hd =>
    rw [Nat.toDigits_of_lt_base hd, List.mem_singleton] at h
    exact ⟨d, hd, h.symm⟩
  | digit n d hd hn ih =>
    rw [toDigits_concat hr hn hd, List.mem_append, List.mem_singleton] at h
    cases h with
    | inl h => exact ih h
    | inr h => exact ⟨d, hd, h.symm⟩

theorem digit?_digitChar {d : Nat} (hr : radix ≤ 16) (hd : d < radix) :
    digit? radix d.digitChar = some d := by
  have hv : ∀ d < 16, digit? 16 d.digitChar = some d := by decide
  have h := hv d (by omega)
  rw [digit?, Option.filter_eq_some_iff] at h ⊢
  exact ⟨h.1, by simpa using hd⟩

theorem natOfDigits?_toDigits (hr : 1 < radix) (hr' : radix ≤ 16) (n : Nat) :
    natOfDigits? radix (Nat.toDigits radix n) = some n := by
  rw [natOfDigits?, if_neg (by simp)]
  induction n using Nat.base_induction radix hr with
  | single d hd => simp [Nat.toDigits_of_lt_base hd, digit?_digitChar hr' hd]
  | digit n d hd hn ih =>
    rw [toDigits_concat hr hn hd, List.foldlM_append, ih, Nat.mul_comm]
    simp [digit?_digitChar hr' hd]

theorem natOfDigits?_eq_none {c : Char} {cs : List Char} (hc : c ∈ cs)
    (hd : digit? radix c = none) : natOfDigits? radix cs = none := by
  rw [natOfDigits?]
  split
  · rfl
  · suffices h : ∀ n, cs.foldlM (fun n c => (digit? radix c).map (n * radix + ·)) n = none
      from h 0
    induction cs with
    | nil => cases hc
    | cons d ds ih =>
      intro n
      rw [List.foldlM_cons]
      cases List.mem_cons.1 hc with
      | inl he => rw [← he, hd]; rfl
      | inr hm =>
        cases digit? radix d with
        | none => rfl
        | some k => exact ih hm (by simp [List.ne_nil_of_mem hm]) _

/-! ### Hexadecimal -/

theorem hexDigits_injective {n m : Nat} (h : hexDigits n = hexDigits m) : n = m := by
  have hn : natOfDigits? 16 (Nat.toDigits 16 n) = some n :=
    natOfDigits?_toDigits (by decide) (by decide) n
  have hm : natOfDigits? 16 (Nat.toDigits 16 m) = some m :=
    natOfDigits?_toDigits (by decide) (by decide) m
  rw [hexDigits, hexDigits] at h
  rw [h, hm] at hn
  exact Option.some.inj hn.symm

def hexAlphabet : List Char := "0123456789abcdef".toList

theorem mem_hexAlphabet {n : Nat} {c : Char} (h : c ∈ hexDigits n) : c ∈ hexAlphabet := by
  have hv : ∀ d < 16, d.digitChar ∈ hexAlphabet := by decide
  obtain ⟨d, hd, rfl⟩ := mem_toDigits (by decide) h
  exact hv d hd

/-! ### Decimal -/

def digits : List Char := "0123456789".toList

theorem mem_digits {c : Char} (h : isDigit c = true) : c ∈ digits := by
  have hv : ∀ n < 58, 48 ≤ n → Char.ofNat n ∈ digits := by decide
  simp only [isDigit, Bool.and_eq_true, decide_eq_true_eq, Char.le_def, UInt32.le_iff_toNat_le] at h
  have hl : 48 ≤ c.toNat := h.1
  have hu : c.toNat ≤ 57 := h.2
  rw [← Char.ofNat_toNat c]
  exact hv c.toNat (by omega) hl

theorem isDigit_of_mem_decimalDigits {n : Nat} {c : Char} (h : c ∈ decimalDigits n) :
    isDigit c = true := by
  have hv : ∀ d < 10, isDigit d.digitChar = true := by decide
  obtain ⟨d, hd, rfl⟩ := mem_toDigits (by decide) h
  exact hv d hd

theorem decimalDigits_ne_nil (n : Nat) : decimalDigits n ≠ [] := Nat.toDigits_ne_nil

theorem decimalDigits_eq_cons (n : Nat) :
    ∃ d ds, decimalDigits n = d :: ds ∧ isDigit d = true := by
  obtain ⟨d, ds, h⟩ := List.exists_cons_of_ne_nil (decimalDigits_ne_nil n)
  exact ⟨d, ds, h, isDigit_of_mem_decimalDigits (h ▸ List.mem_cons_self)⟩

theorem head?_decimalDigits {n : Nat} (h : 0 < n) : (decimalDigits n).head? ≠ some '0' := by
  rw [decimalDigits]
  induction n using Nat.base_induction 10 (by decide) with
  | single d hd =>
    rw [Nat.toDigits_of_lt_base hd]
    simpa using Nat.ne_of_gt h
  | digit n d hd hn ih =>
    obtain ⟨c, cs, hc⟩ := List.exists_cons_of_ne_nil (decimalDigits_ne_nil n)
    rw [decimalDigits] at hc
    rw [hc] at ih
    rw [toDigits_concat (by decide) hn hd, hc]
    exact ih hn

/-- What extends a number with some digits extends it with more. -/
theorem extend_append {n m : Nat} {ds : List Char} (h : Json.extend n ds = (m, 0))
    (cs : List Char) : Json.extend n (ds ++ cs) = Json.extend m cs := by
  induction ds generalizing n with
  | nil =>
    cases h
    rfl
  | cons d ds ih =>
    simp only [Json.extend, List.cons_append] at h ⊢
    split at h
    · next hm => rw [if_pos hm, ih h]
    · cases h

theorem extend_decimalDigits {n : Nat} (h : n < pow2 64) :
    Json.extend 0 (decimalDigits n) = (n, 0) := by
  have hv : ∀ d < 10, d.digitChar.toNat - '0'.toNat = d := by decide
  rw [decimalDigits]
  induction n using Nat.base_induction 10 (by decide) with
  | single d hd =>
    simp only [Nat.toDigits_of_lt_base hd, Json.extend, hv d hd, Nat.zero_mul, Nat.zero_add, h,
      if_true]
  | digit n d hd hn ih =>
    rw [toDigits_concat (by decide) hn hd, extend_append (ih (by omega))]
    simp only [Json.extend, hv d hd, Nat.mul_comm n, h, if_true]

end RemoteCall.Numeric
