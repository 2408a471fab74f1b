import RemoteCall.Proofs.Json.Scalar

/-! What the text of a binary fraction looks like. -/

namespace RemoteCall.Json

open Numeric

def isFractionChar (c : Char) : Bool := isDigit c || c ∈ ['.', 'e', '+', '-']

/-- Text of digits and signs that begins with a digit and shows a point or an exponent. -/
structure Fractional (cs : List Char) : Prop where
  chars : ∀ c ∈ cs, isFractionChar c = true
  shown : '.' ∈ cs ∨ 'e' ∈ cs
  head : ∃ d ds, cs = d :: ds ∧ isDigit d = true

theorem isFractionChar_of_digit {c : Char} (h : isDigit c = true) : isFractionChar c = true := by
  simp [isFractionChar, h]

theorem fractional_cons {d : Char} (hd : isDigit d = true) {cs : List Char}
    (hc : ∀ c ∈ cs, isFractionChar c = true) (hs : '.' ∈ cs ∨ 'e' ∈ cs) :
    Fractional (d :: cs) where
  chars := List.forall_mem_cons.2 ⟨isFractionChar_of_digit hd, hc⟩
  shown := hs.imp (List.mem_cons_of_mem d) (List.mem_cons_of_mem d)
  head := ⟨d, cs, rfl, hd⟩

/-- A sign among digits. -/
theorem forall_mem_signed {sign : Char} (hs : isFractionChar sign = true) {cs ds : List Char}
    (hc : ∀ c ∈ cs, isFractionChar c = true) (hd : ∀ d ∈ ds, isFractionChar d = true) :
    ∀ c ∈ cs ++ sign :: ds, isFractionChar c = true :=
  List.forall_mem_append.2 ⟨hc, List.forall_mem_cons.2 ⟨hs, hd⟩⟩

theorem fractional_layout {ds : List Char} (hd : ∀ d ∈ ds, isDigit d = true) (hn : ds ≠ [])
    (e : Int) : Fractional (layout ds e) := by
  have hds : ∀ d ∈ ds, isFractionChar d = true := fun d h => isFractionChar_of_digit (hd d h)
  have hz : ∀ n, ∀ c ∈ List.replicate n '0', isFractionChar c = true := by
    intro n c hc
    rw [List.eq_of_mem_replicate hc]
    decide
  have hexp : ∀ n, ∀ c ∈ decimalDigits n, isFractionChar c = true := fun n c hc =>
    isFractionChar_of_digit (isDigit_of_mem_decimalDigits hc)
  obtain ⟨d, ds, rfl⟩ := List.exists_cons_of_ne_nil hn
  obtain ⟨h₀, ht⟩ := List.forall_mem_cons.1 hds
  have hd₀ := hd d List.mem_cons_self
  simp only [layout]
  split
  · split
    · refine fractional_cons hd₀ ?_ (by simp)
      have hp : ∀ c ∈ ['.', '0'], isFractionChar c = true := List.all_eq_true.1 (by decide)
      exact List.forall_mem_append.2 ⟨List.forall_mem_append.2 ⟨ht, hz _⟩, hp⟩
    · split
      · refine fractional_cons hd₀ ?_ (by simp)
        exact forall_mem_signed (by decide) (fun c hc => ht c (List.mem_of_mem_take hc))
          (fun c hc => hds c (List.mem_of_mem_drop hc))
      · refine fractional_cons (by decide) ?_ (by simp)
        exact List.forall_mem_cons.2 ⟨by decide, List.forall_mem_append.2 ⟨hz _, hds⟩⟩
  · have hsign : ∀ lead : Int, isFractionChar (if lead < 0 then '-' else '+') = true := by
      intro lead
      split <;> decide
    have htail : ∀ lead : Int,
      ∀ c ∈ (if lead < 0 then '-' else '+') :: decimalDigits lead.natAbs,
        isFractionChar c = true := fun lead =>
      List.forall_mem_cons.2 ⟨hsign lead, hexp lead.natAbs⟩
    cases ds with
    | nil =>
      refine fractional_cons hd₀ ?_ (by simp)
      exact forall_mem_signed (by decide) (by simp) (htail _)
    | cons a ds =>
      refine fractional_cons hd₀ ?_ (by simp)
      exact forall_mem_signed (by decide) (List.forall_mem_cons.2 ⟨by decide, ht⟩) (htail _)

theorem floatChars_eq (x : Binary64) : ∃ cs, Fractional cs ∧
    floatChars x = (if x.negative then ['-'] else []) ++ cs := by
  refine ⟨_, ?_, rfl⟩
  split
  · exact fractional_cons (by decide) (List.all_eq_true.1 (by decide)) (by simp)
  · exact fractional_layout (fun _ => isDigit_of_mem_decimalDigits) (decimalDigits_ne_nil _) _

theorem isFractionChar_of_mem_chars {x : Number} {c : Char} (h : c ∈ x.chars) :
    isFractionChar c = true := by
  have hm : isFractionChar '-' = true := by decide
  have hd : ∀ {n}, c ∈ decimalDigits n → isFractionChar c = true := fun h =>
    isFractionChar_of_digit (isDigit_of_mem_decimalDigits h)
  cases x with
  | integer n =>
    rw [Number.chars, decimal] at h
    split at h
    · cases List.mem_cons.1 h with
      | inl he => exact he ▸ hm
      | inr h => exact hd h
    · exact hd h
  | float x =>
    obtain ⟨cs, hf, he⟩ := floatChars_eq x
    rw [Number.chars, he] at h
    cases List.mem_append.1 h with
    | inl h =>
      split at h
      · exact List.mem_singleton.1 h ▸ hm
      · cases h
    | inr h => exact hf.chars c h

end RemoteCall.Json
