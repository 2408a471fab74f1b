import RemoteCall.Json.Basic
import RemoteCall.Numeric.Decimal
import RemoteCall.Text.Blank
import Mathlib.Algebra.Order.Ring.Int

/-!
What a text spells and what a fraction is, said without the readers. Main statements: the reader of
whole numbers accepts the texts of an optional sign and one or more digits, and a fraction is taken
for a whole number where its exact value is one.
-/

namespace RemoteCall.Numeric

/-! ### Digits -/

/-- Decimal digits, one or more. -/
structure Digital (ds : List Char) : Prop where
  nonempty : ds ≠ []
  digits : ∀ d ∈ ds, isDigit d = true

/-- Digits and the number that they spell. -/
structure SpellsNat (ds : List Char) (n : Nat) : Prop extends Digital ds where
  value : n = Nat.ofDigitChars 10 ds 0

theorem isDigit_iff {c : Char} : isDigit c = true ↔ 48 ≤ c.toNat ∧ c.toNat ≤ 57 := by
  rw [isDigit, Bool.and_eq_true, decide_eq_true_eq, decide_eq_true_eq]
  exact Iff.rfl

theorem digit?_ten (c : Char) :
    digit? 10 c = if isDigit c then some (c.toNat - 48) else none := by
  have hd : ('0' ≤ c ∧ c ≤ '9') ↔ isDigit c = true := by
    rw [isDigit, Bool.and_eq_true, decide_eq_true_eq, decide_eq_true_eq]
  rw [digit?]
  simp only [hd]
  split
  · next h =>
    have hlt : c.toNat - 48 < 10 := by
      have := isDigit_iff.1 h
      omega
    exact Option.filter_some_pos (by simpa using hlt)
  · -- A letter stands for ten or more.
    split
    · exact Option.filter_some_neg (by simp)
    · split
      · exact Option.filter_some_neg (by simp)
      · rfl

theorem foldlM_digits {ds : List Char} {m n : Nat} :
    ds.foldlM (fun n c => (digit? 10 c).map (n * 10 + ·)) m = some n ↔
      (∀ d ∈ ds, isDigit d = true) ∧ n = Nat.ofDigitChars 10 ds m := by
  induction ds generalizing m with
  | nil =>
    rw [List.foldlM_nil, Nat.ofDigitChars_nil]
    exact ⟨fun h => ⟨List.forall_mem_nil _, (Option.some.inj h).symm⟩,
      fun h => congrArg some h.2.symm⟩
  | cons d ds ih =>
    rw [List.foldlM_cons, digit?_ten, Nat.ofDigitChars_cons, List.forall_mem_cons, Nat.mul_comm 10]
    split
    · next hd =>
      rw [Option.map_some, Option.bind_eq_bind, Option.bind_some, ih]
      simp only [hd, true_and]
      rfl
    · next hd => simp only [hd, Option.map_none, Option.bind_eq_bind, Option.bind_none, false_and,
        reduceCtorEq]

theorem natOfDigits?_eq_some_iff {ds : List Char} {n : Nat} :
    natOfDigits? 10 ds = some n ↔ SpellsNat ds n := by
  rw [natOfDigits?]
  cases ds with
  | nil =>
    refine iff_of_false ?_ fun h => h.nonempty rfl
    rintro ⟨⟩
  | cons d ds =>
    rw [if_neg (by simp), foldlM_digits]
    exact ⟨fun h => ⟨⟨List.cons_ne_nil d ds, h.1⟩, h.2⟩,
      fun h => ⟨h.digits, h.value⟩⟩

theorem SpellsNat.not_blank {ds : List Char} {n : Nat} (h : SpellsNat ds n) :
    ∀ c ∈ ds, Text.isBlank c = false := by
  intro c hc
  have := isDigit_iff.1 (h.digits c hc)
  simp [Text.isBlank]
  omega

/-! ### Whole numbers -/

/-- Digits behind an optional sign, and the whole number that they spell. -/
inductive Spells : List Char → Int → Prop
  | plain {ds : List Char} {n : Nat} : SpellsNat ds n → Spells ds n
  | plus {ds : List Char} {n : Nat} : SpellsNat ds n → Spells ('+' :: ds) n
  | minus {ds : List Char} {n : Nat} : SpellsNat ds n → Spells ('-' :: ds) (-n)

theorem SpellsNat.head_ne {c : Char} {ds : List Char} {n : Nat} (h : SpellsNat (c :: ds) n)
    {sign : Char} (hs : isDigit sign = false) : c ≠ sign := by
  rintro rfl
  cases hs.symm.trans (h.digits c List.mem_cons_self)

theorem Spells.not_blank {cs : List Char} {n : Int} (h : Spells cs n) :
    ∀ c ∈ cs, Text.isBlank c = false := by
  cases h with
  | plain h => exact h.not_blank
  | plus h => exact List.forall_mem_cons.2 ⟨by decide, h.not_blank⟩
  | minus h => exact List.forall_mem_cons.2 ⟨by decide, h.not_blank⟩

theorem map_natOfDigits?_eq_some_iff {ds : List Char} {f : Int → Int} {n : Int} :
    ((natOfDigits? 10 ds >>= fun k => pure (k : Int)).map f) = some n ↔
      ∃ k : Nat, SpellsNat ds k ∧ f k = n := by
  simp only [← natOfDigits?_eq_some_iff]
  cases natOfDigits? 10 ds with
  | none => simp
  | some k => simp

theorem intOfDigits?_eq_some_iff {cs : List Char} {n : Int} :
    intOfDigits? 10 cs = some n ↔ Spells cs n := by
  constructor
  · intro h
    unfold intOfDigits? at h
    split at h
    all_goals obtain ⟨k, hk, rfl⟩ := map_natOfDigits?_eq_some_iff.1 h
    · exact .minus hk
    · exact .plus hk
    · exact .plain hk
  · intro h
    cases h with
    | minus h => exact map_natOfDigits?_eq_some_iff.2 ⟨_, h, rfl⟩
    | plus h => exact map_natOfDigits?_eq_some_iff.2 ⟨_, h, rfl⟩
    | plain h =>
      unfold intOfDigits?
      split
      · exact absurd rfl (h.head_ne (by decide))
      · exact absurd rfl (h.head_ne (by decide))
      · exact map_natOfDigits?_eq_some_iff.2 ⟨_, h, rfl⟩

/-! ### Fractions -/

namespace Binary64

/-- The exact value of a fraction is a whole number. -/
def IsWhole (x : Binary64) (n : Int) : Prop :=
  (if x.negative then -(x.ratio.1 : Int) else x.ratio.1) = n * x.ratio.2

theorem ratio_pos (x : Binary64) : 0 < x.ratio.2 := by
  rw [ratio, scale]
  split
  · exact Nat.one_pos
  · rw [Nat.one_mul]
    exact Nat.pow_pos (by decide)

theorem eq_mul_iff {a b : Nat} (hb : 0 < b) {n : Int} :
    (a : Int) = n * b ↔ a % b = 0 ∧ ((a / b : Nat) : Int) = n := by
  have hz : (b : Int) ≠ 0 := by omega
  constructor
  · intro h
    have hn : 0 ≤ n := by
      by_contra hn
      have : n * b < 0 := Int.mul_neg_of_neg_of_pos (by omega) (by omega)
      omega
    obtain ⟨k, rfl⟩ := Int.eq_ofNat_of_zero_le hn
    have hk : a = k * b := by exact_mod_cast h
    subst hk
    exact ⟨Nat.mul_mod_left k b, by rw [Nat.mul_div_cancel k hb]⟩
  · rintro ⟨hm, rfl⟩
    exact_mod_cast (Nat.div_mul_cancel (Nat.dvd_of_mod_eq_zero hm)).symm

theorem toInt?_eq_some_iff {x : Binary64} {n : Int} : x.toInt? = some n ↔ x.IsWhole n := by
  have hd := x.ratio_pos
  rw [toInt?, IsWhole]
  cases x.negative with
  | false =>
    simp only [Bool.false_eq_true, if_false, eq_mul_iff hd]
    split <;> simp_all
  | true =>
    have hneg : -(x.ratio.1 : Int) = n * x.ratio.2 ↔ (x.ratio.1 : Int) = -n * x.ratio.2 := by
      rw [Int.neg_mul, neg_eq_iff_eq_neg]
    simp only [if_true, hneg, eq_mul_iff hd]
    split <;> simp_all [neg_eq_iff_eq_neg]

end Binary64

end RemoteCall.Numeric
