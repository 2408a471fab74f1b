import RemoteCall.Proofs.Shape.Key

/-!
Lenient reading of whole numbers. Main statement: it is exact at every width. What is read is the
number that the value denotes, and anything that denotes none in the range of the shape is refused.
-/

namespace RemoteCall

/-- A value that denotes a whole number exactly: the number itself, a text of an optional sign and
digits between blanks, or a fraction below `9e15` that has it as exact value. -/
inductive Json.Denotes : Json → Int → Prop
  | integer (n : Integer) : Denotes (.integer n) n.val
  | text {s : String} {cs : List Char} {n : Int} :
    Text.Framed s.toList cs → Numeric.Spells cs n → Denotes (.string s) n
  | fraction {x : Numeric.Binary64} {n : Int} :
    x.IsWhole n → n.natAbs < 9000000000000000 → Denotes (.float x) n

theorem Size.bits_le (size : Size) : size.bits ≤ 64 := by
  cases size <;> decide

namespace Width

theorem pow2_le {k m : Nat} (h : k ≤ m) : (Numeric.pow2 k : Int) ≤ Numeric.pow2 m :=
  Int.ofNat_le.2 (Nat.pow_le_pow_right (by decide) h)

/-- No width goes past the numbers that there are. -/
theorem exists_of_holds {w : Width} {n : Int} (h : w.Holds n) : ∃ k : Integer, k.val = n := by
  cases w with
  | signed size =>
    have hp := pow2_le (Nat.sub_le_sub_right size.bits_le 1)
    have h63 : Numeric.pow2 (64 - 1) = 9223372036854775808 := rfl
    obtain ⟨hl, hu⟩ := h
    exact ⟨⟨n, by omega⟩, rfl⟩
  | unsigned size =>
    have hp := pow2_le size.bits_le
    have h64 : Numeric.pow2 64 = 18446744073709551616 := rfl
    obtain ⟨hl, hu⟩ := h
    exact ⟨⟨n, by omega⟩, rfl⟩

end Width

/-- A value denotes a number of 64 bits if it is the number, or stands for it. -/
theorem Json.denotes_iff {v : Json} {k : Integer} :
    v.Denotes k.val ↔ v = .integer k ∨ DenotesInteger v k := by
  constructor
  · generalize hn : k.val = n
    rintro (m | ⟨hf, h⟩ | ⟨h, hlt⟩)
    · exact .inl (congrArg Json.integer (Subtype.ext hn.symm))
    · exact .inr (.text hf (hn ▸ h))
    · exact .inr (.fraction (hn ▸ h) (hn ▸ hlt))
  · rintro (rfl | ⟨hf, h⟩ | ⟨h, hlt⟩)
    · exact .integer k
    · exact .text hf h
    · exact .fraction h hlt

namespace Lax

/-- What a value is taken for is a number exactly if the value denotes it. -/
theorem asInteger_eq_integer_iff {v : Json} {k : Integer} :
    asInteger v = .integer k ↔ v.Denotes k.val := by
  rw [Json.denotes_iff, asInteger]
  cases h : integer? v with
  | none =>
    have hn : ¬ DenotesInteger v k := fun hd => by
      cases h.symm.trans (integer?_eq_some_iff.2 hd)
    exact ⟨.inl, fun hv => hv.resolve_right hn⟩
  | some m =>
    have hd := integer?_eq_some_iff.1 h
    constructor
    · intro he
      cases he
      exact .inr hd
    · rintro (rfl | hk)
      · cases hd
      · cases h.symm.trans (integer?_eq_some_iff.2 hk)
        rfl

end Lax

namespace Shape

variable {w : Width} {v : Json}

theorem lax_integer_eq_ok_iff {x : Datum} :
    (integer w).lax v = .ok x ↔
      ∃ k : Integer, x = .integer k ∧ w.Holds k.val ∧ v.Denotes k.val := by
  rw [lax, Decoder.integer_eq_ok_iff]
  simp only [Lax.asInteger_eq_integer_iff]
  constructor
  · rintro ⟨k, hd, hw, rfl⟩
    exact ⟨k, rfl, hw, hd⟩
  · rintro ⟨k, rfl, hw, hd⟩
    exact ⟨k, hd, hw, rfl⟩

/-- A number is read of a value exactly if it is in range and the value denotes it. If there is no
such number then reading fails. -/
theorem lax_integer_exact (w : Width) (v : Json) :
    (∀ n : Int, (∃ k : Integer, k.val = n ∧ (integer w).lax v = .ok (.integer k)) ↔
        w.Holds n ∧ v.Denotes n) ∧
      ((∃ m, (integer w).lax v = .error m) ↔ ∀ n, w.Holds n → ¬ v.Denotes n) := by
  have hiff (n : Int) : (∃ k : Integer, k.val = n ∧ (integer w).lax v = .ok (.integer k)) ↔
      w.Holds n ∧ v.Denotes n := by
    constructor
    · rintro ⟨k, rfl, h⟩
      obtain ⟨m, he, hk⟩ := lax_integer_eq_ok_iff.1 h
      cases he
      exact hk
    · rintro ⟨hh, hd⟩
      obtain ⟨k, rfl⟩ := Width.exists_of_holds hh
      exact ⟨k, rfl, lax_integer_eq_ok_iff.2 ⟨k, rfl, hh, hd⟩⟩
  refine ⟨hiff, ?_, fun hn => ?_⟩
  · rintro ⟨m, hm⟩ n hh hd
    obtain ⟨k, -, hk⟩ := (hiff n).2 ⟨hh, hd⟩
    cases hm.symm.trans hk
  · cases hr : (integer w).lax v with
    | error m => exact ⟨m, rfl⟩
    | ok x =>
      obtain ⟨k, -, hh, hd⟩ := lax_integer_eq_ok_iff.1 hr
      exact absurd hd (hn k.val hh)

/-- The least number of 64 bits with blanks and zeros around, and the number past the greatest. -/
theorem lax_integer_exact_extremes :
    (integer (.signed 64)).lax (.string " -0009223372036854775808\n") =
        .ok (.integer ⟨-9223372036854775808, by decide⟩) ∧
      ∃ m, (integer (.unsigned 64)).lax (.string "+18446744073709551616") = .error m := by
  have hl : Numeric.Spells "-0009223372036854775808".toList (-9223372036854775808) :=
    Numeric.intOfDigits?_eq_some_iff.1 (by decide +kernel)
  have hf : Text.Framed " -0009223372036854775808\n".toList "-0009223372036854775808".toList :=
    (Text.framed_iff_trim hl.not_blank).2 (by decide +kernel)
  have hg : Numeric.Spells "+18446744073709551616".toList 18446744073709551616 :=
    Numeric.intOfDigits?_eq_some_iff.1 (by decide +kernel)
  obtain ⟨k, hk, h⟩ := ((lax_integer_exact (.signed 64) _).1 _).2 ⟨by decide, .text hf hl⟩
  refine ⟨?_, (lax_integer_exact (.unsigned 64) _).2.2 ?_⟩
  · rw [h]
    exact congrArg (fun k => Except.ok (Datum.integer k)) (Subtype.ext hk)
  · rintro n hn (_ | ⟨ht, hs⟩ | _)
    rw [← (Text.framed_iff_trim hs.not_blank).1 ht] at hs
    rw [(Text.framed_iff_trim hg.not_blank).1 (Text.framed_self _)] at hs
    have he := Numeric.intOfDigits?_eq_some_iff.2 hs
    rw [Numeric.intOfDigits?_eq_some_iff.2 hg] at he
    cases he
    exact absurd hn (by decide)

end Shape

end RemoteCall
