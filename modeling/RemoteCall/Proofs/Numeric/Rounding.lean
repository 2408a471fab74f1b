import RemoteCall.Proofs.Numeric.Shortest
import RemoteCall.Proofs.Numeric.Spelling

/-!
Rounding a quotient to the nearest number. Main statement: the number differs from the quotient by
at most half a unit in the last place, and so a quotient that lies well below the end of the format
is rounded to some number of it.
-/

namespace RemoteCall.Numeric

/-- A quotient in its whole part and the rest, and how the rest compares with one half. -/
theorem exists_rest (num : Nat) {den : Nat} (hd : 0 < den) :
    ∃ r : ℚ, (num : ℚ) / den = (num / den : Nat) + r ∧ 0 ≤ r ∧ r < 1 ∧
      (2 * (num % den) < den ↔ r < 1 / 2) ∧ (den < 2 * (num % den) ↔ 1 / 2 < r) := by
  have hd' : (0 : ℚ) < den := Nat.cast_pos.2 hd
  obtain ⟨r, hr⟩ : ∃ r : ℚ, ((num % den : Nat) : ℚ) / den = r := ⟨_, rfl⟩
  have hm : ((num % den : Nat) : ℚ) = r * den := by rw [← hr, div_mul_cancel₀ _ hd'.ne']
  refine ⟨r, ?_, ?_, ?_, ?_, ?_⟩
  · rw [← hr, eq_comm, eq_div_iff hd'.ne', add_mul, div_mul_cancel₀ _ hd'.ne']
    exact_mod_cast Nat.div_add_mod' num den
  · rw [← hr]
    positivity
  · rw [← mul_lt_mul_iff_left₀ hd', ← hm, one_mul]
    exact_mod_cast Nat.mod_lt num hd
  · rw [← Nat.cast_lt (α := ℚ), Nat.cast_mul, hm, ← mul_lt_mul_iff_left₀ hd' (b := r)]
    push_cast
    constructor <;> intro h <;> linarith
  · rw [← Nat.cast_lt (α := ℚ), Nat.cast_mul, hm, ← mul_lt_mul_iff_left₀ hd' (c := r)]
    push_cast
    constructor <;> intro h <;> linarith

/-- How far the rounded quotient is from the exact one, and that it is even where it lies in the
middle between two. -/
theorem abs_divEven_sub_le (num : Nat) {den : Nat} (hd : 0 < den) :
    |(divEven num den : ℚ) - num / den| ≤ 1 / 2 ∧
      (divEven num den % 2 = 1 → |(divEven num den : ℚ) - num / den| < 1 / 2) := by
  obtain ⟨r, hq, h0, h1, hlt, hgt⟩ := exists_rest num hd
  rw [hq, divEven]
  simp only [hlt, hgt]
  split
  · next h =>
    have he : |((num / den : Nat) : ℚ) - ((num / den : Nat) + r)| < 1 / 2 := by
      rw [abs_lt]
      constructor <;> linarith
    exact ⟨he.le, fun _ => he⟩
  · split
    · next h =>
      have he : |((num / den + 1 : Nat) : ℚ) - ((num / den : Nat) + r)| < 1 / 2 := by
        rw [abs_lt]
        push_cast
        constructor <;> linarith
      exact ⟨he.le, fun _ => he⟩
    · -- In the middle the rest of the whole part by two is added, which makes it even.
      refine ⟨?_, fun ho => absurd ho (by omega)⟩
      rw [abs_le]
      rcases Nat.mod_two_eq_zero_or_one (num / den) with he | he <;>
        · rw [he]
          push_cast
          constructor <;> linarith

theorem scale_pos (num : Nat) {den : Nat} (hd : 0 < den) (e : Int) : 0 < (scale num den e).2 := by
  rw [scale]
  split
  · exact hd
  · exact Nat.mul_pos hd (pow2_pos _)

theorem floorLog2_bounds {num den : Nat} (hn : 0 < num) (hd : 0 < den) :
    (2 : ℚ) ^ floorLog2 num den ≤ num / den ∧
      (num : ℚ) / den < 2 ^ (floorLog2 num den + 1) := by
  have hd' : (0 : ℚ) < den := Nat.cast_pos.2 hd
  have hln : (2 : ℚ) ^ Nat.log2 num ≤ num := by exact_mod_cast Nat.log2_self_le hn.ne'
  have hun : (num : ℚ) < 2 ^ (Nat.log2 num + 1) := by exact_mod_cast Nat.lt_log2_self
  have hld : (2 : ℚ) ^ Nat.log2 den ≤ den := by exact_mod_cast Nat.log2_self_le hd.ne'
  have hud : (den : ℚ) < 2 ^ (Nat.log2 den + 1) := by exact_mod_cast Nat.lt_log2_self
  obtain ⟨e, he⟩ : ∃ e : Int, (Nat.log2 num : Int) - Nat.log2 den = e := ⟨_, rfl⟩
  have hpow {a b : Nat} {c : Int} (h : (a : Int) - b = c) : (2 : ℚ) ^ a = 2 ^ c * 2 ^ b := by
    rw [← zpow_natCast, ← zpow_natCast, ← zpow_add₀ two_ne_zero, ← h, sub_add_cancel]
  have hlow : (2 : ℚ) ^ (e - 1) ≤ num / den := by
    rw [le_div_iff₀ hd']
    refine le_trans ?_ hln
    rw [hpow (a := Nat.log2 num) (b := Nat.log2 den + 1) (c := e - 1) (by push_cast; omega)]
    exact mul_le_mul_of_nonneg_left hud.le (by positivity)
  have hhigh : (num : ℚ) / den < 2 ^ (e + 1) := by
    rw [div_lt_iff₀ hd']
    refine lt_of_lt_of_le hun ?_
    rw [hpow (a := Nat.log2 num + 1) (b := Nat.log2 den) (c := e + 1) (by push_cast; omega)]
    exact mul_le_mul_of_nonneg_left hld (by positivity)
  have hs : (scale num den (-e)).2 ≤ (scale num den (-e)).1 ↔ (2 : ℚ) ^ e ≤ num / den := by
    have hp : (0 : ℚ) < (scale num den (-e)).2 := Nat.cast_pos.2 (scale_pos num hd _)
    rw [← Nat.cast_le (α := ℚ), ← one_le_div hp, scale_div, zpow_neg, ← div_eq_mul_inv,
      one_le_div (by positivity)]
  simp only [floorLog2, he, hs]
  split
  · next h => exact ⟨h, hhigh⟩
  · next h =>
    rw [sub_add_cancel]
    exact ⟨hlow, not_le.1 h⟩

namespace Format

variable (f : Format)

/-- The magnitude with a significand, which may be the least one of the next exponent, and with an
exponent, counted from the least one on. -/
theorem size_add {q j : Nat} (hq : q ≤ 2 * pow2 (f.precision - 1))
    (hj : 0 < j → pow2 (f.precision - 1) ≤ q) :
    f.size (q + j * pow2 (f.precision - 1)) = q * 2 ^ (f.leastExponent + j) := by
  have hp := pow2_pos (f.precision - 1)
  rw [size]
  rcases Nat.lt_or_ge q (pow2 (f.precision - 1)) with hlt | hge
  · obtain rfl : j = 0 := by
      by_contra hn
      exact absurd (hj (Nat.pos_of_ne_zero hn)) (Nat.not_le.2 hlt)
    rw [Nat.zero_mul, Nat.add_zero, f.magnitude_of_lt hlt, Nat.cast_zero, add_zero]
  · rcases Nat.lt_or_eq_of_le hq with hlt | rfl
    · have hm : q - pow2 (f.precision - 1) + pow2 (f.precision - 1) * (j + 1) =
          q + j * pow2 (f.precision - 1) := by
        rw [Nat.mul_add_one, Nat.mul_comm]
        omega
      rw [f.magnitude_of_eq (Nat.succ_pos j) (by omega) hm, Nat.add_sub_cancel' hge]
      rfl
    · have hm : 0 + pow2 (f.precision - 1) * (j + 2) =
          2 * pow2 (f.precision - 1) + j * pow2 (f.precision - 1) := by
        ring
      have he : f.leastExponent + ((j + 2 - 1 : Nat) : Int) = f.leastExponent + j + 1 := by
        omega
      rw [f.magnitude_of_eq (Nat.succ_pos _) hp hm, he, zpow_add_one₀ two_ne_zero]
      push_cast
      ring

/-- The exponent of the last place to which a quotient is rounded. -/
def lastPlace (num den : Nat) : Int :=
  max f.leastExponent (floorLog2 num den - (f.precision - 1 : Nat))

variable {num den : Nat}

/-- A quotient is rounded to `q` units in the last place, `j` exponents above the least one. -/
structure Significand (num den q j : Nat) : Prop where
  place : f.lastPlace num den = f.leastExponent + j
  normal : 0 < j → (pow2 (f.precision - 1) : ℚ) ≤ num / den / 2 ^ f.lastPlace num den
  below : (num : ℚ) / den / 2 ^ f.lastPlace num den < 2 * pow2 (f.precision - 1)
  near : |(q : ℚ) - num / den / 2 ^ f.lastPlace num den| ≤ 1 / 2
  even : q % 2 = 1 → |(q : ℚ) - num / den / 2 ^ f.lastPlace num den| < 1 / 2

theorem exists_significand (hn : 0 < num) (hd : 0 < den) :
    ∃ q j, f.nearest num den = q + j * pow2 (f.precision - 1) ∧ f.Significand num den q j := by
  obtain ⟨hlow, hhigh⟩ := floorLog2_bounds hn hd
  obtain ⟨e, he⟩ : ∃ e, f.lastPlace num den = e := ⟨_, rfl⟩
  have hunit : (0 : ℚ) < 2 ^ e := by positivity
  obtain ⟨hround, heven⟩ :=
    abs_divEven_sub_le (scale num den (-e)).1 (scale_pos num hd (-e))
  rw [scale_div, zpow_neg, ← div_eq_mul_inv] at hround heven
  refine ⟨divEven (scale num den (-e)).1 (scale num den (-e)).2, (e - f.leastExponent).toNat, ?_,
    ?_⟩
  · rw [nearest, if_neg hn.ne', show max f.leastExponent _ = e from he]
  refine ⟨?_, fun hj => ?_, ?_, he ▸ hround, he ▸ heven⟩
  · rw [← he, lastPlace]
    omega
  · rw [he, le_div_iff₀ hunit]
    refine le_trans ?_ hlow
    rw [cast_pow2, ← zpow_natCast, ← zpow_add₀ two_ne_zero]
    refine zpow_le_zpow_right₀ one_le_two ?_
    rw [← he, lastPlace] at hj ⊢
    omega
  · rw [he, div_lt_iff₀ hunit]
    refine hhigh.trans_le ?_
    rw [cast_pow2, ← zpow_natCast, ← zpow_one_add₀ two_ne_zero, ← zpow_add₀ two_ne_zero]
    refine zpow_le_zpow_right₀ one_le_two ?_
    rw [← he, lastPlace]
    omega

section

variable {f} {q j : Nat}

/-- The significand may take one bit more than the precision, and takes as many as the precision
above the least exponent. -/
theorem Significand.bounds (h : f.Significand num den q j) :
    q ≤ 2 * pow2 (f.precision - 1) ∧ (0 < j → pow2 (f.precision - 1) ≤ q) := by
  have hnear := abs_le.1 h.near
  constructor
  · rw [← Nat.lt_add_one_iff, ← Nat.cast_lt (α := ℚ)]
    push_cast
    linarith [hnear.2, h.below]
  · intro hj
    rw [← Nat.lt_add_one_iff, ← Nat.cast_lt (α := ℚ)]
    push_cast
    linarith [hnear.1, h.normal hj]

theorem Significand.size_eq (h : f.Significand num den q j) :
    f.size (q + j * pow2 (f.precision - 1)) = q * 2 ^ f.lastPlace num den := by
  rw [f.size_add h.bounds.1 h.bounds.2, h.place]

/-- The distance of a quotient from some units in the last place. -/
theorem abs_units_sub (e : Int) (q : Nat) (x : ℚ) :
    |(q : ℚ) * 2 ^ e - x| = |(q : ℚ) - x / 2 ^ e| * 2 ^ e := by
  have hunit : (0 : ℚ) < 2 ^ e := by positivity
  calc |(q : ℚ) * 2 ^ e - x|
      = |((q : ℚ) - x / 2 ^ e) * 2 ^ e| := by rw [sub_mul, div_mul_cancel₀ _ hunit.ne']
    _ = |(q : ℚ) - x / 2 ^ e| * 2 ^ e := by rw [abs_mul, abs_of_pos hunit]

end

theorem abs_size_nearest_sub_le (hn : 0 < num) (hd : 0 < den) :
    |f.size (f.nearest num den) - num / den| ≤ 2 ^ f.lastPlace num den / 2 := by
  obtain ⟨q, j, hq, h⟩ := f.exists_significand hn hd
  rw [hq, h.size_eq, abs_units_sub, div_eq_mul_one_div _ (2 : ℚ), mul_comm]
  exact mul_le_mul_of_nonneg_left h.near (by positivity)

end Format

namespace Binary64

open Format (double)

variable {num den : Nat}

/-- A quotient is rounded to a place of the format without an end, whose error is at most the half
of one part in `2 ^ 52` of the quotient, or of one where that is less. -/
theorem abs_size_nearest_sub_le (num : Nat) (hd : 0 < den) :
    |double.size (double.nearest num den) - num / den| ≤ max ((num : ℚ) / den) 1 / 2 ^ 53 := by
  rcases Nat.eq_zero_or_pos num with rfl | hn
  · rw [Format.nearest, if_pos rfl, double.size_zero, Nat.cast_zero, zero_div, sub_zero, abs_zero]
    positivity
  · refine (double.abs_size_nearest_sub_le hn hd).trans ?_
    have hhalf (q : ℚ) : q / 2 ^ 53 = q * 2 ^ (-52 : Int) / 2 := by
      rw [zpow_neg, ← div_eq_mul_inv, div_div, show (52 : Int) = (52 : Nat) from rfl,
        zpow_natCast, ← pow_succ]
    rw [hhalf]
    refine div_le_div_of_nonneg_right ?_ two_pos.le
    rcases le_total double.leastExponent (floorLog2 num den - (double.precision - 1 : Nat)) with
      h | h
    · rw [Format.lastPlace, max_eq_right h, show floorLog2 num den - (double.precision - 1 : Nat) =
        floorLog2 num den + (-52) from rfl, zpow_add₀ two_ne_zero]
      exact mul_le_mul_of_nonneg_right ((floorLog2_bounds hn hd).1.trans (le_max_left _ _))
        (by positivity)
    · rw [Format.lastPlace, max_eq_left h]
      refine le_trans ?_ (mul_le_mul_of_nonneg_right (le_max_right _ _) (by positivity))
      rw [one_mul]
      exact zpow_le_zpow_right₀ one_le_two (by decide)

/-- A step between neighbours at the end of the format. -/
@[irreducible]
def lastStep : ℚ := 2 ^ (971 : Int)

theorem size_of_end {t : Nat} (ht : t ≤ 2 ^ 52) :
    double.size (double.finite - t) = (2 ^ 53 - t) * lastStep := by
  have hp : pow2 (double.precision - 1) = 2 ^ 52 := rfl
  have hf : double.finite - t = (2 ^ 53 - t) + 2045 * pow2 (double.precision - 1) := by
    rw [hp, double]
    dsimp only
    omega
  have he : double.leastExponent + (2045 : Nat) = 971 := rfl
  rw [hf, double.size_add (by omega) (by omega), Nat.cast_sub (by omega), he, lastStep,
    Nat.cast_pow, Nat.cast_two]

theorem size_end : double.size double.finite = 2 ^ 53 * lastStep := by
  have hend := size_of_end (Nat.zero_le _)
  rwa [Nat.sub_zero, Nat.cast_zero, sub_zero] at hend

theorem cast_pow2_end : ((pow2 1024 : Nat) : ℚ) = 2 ^ 53 * lastStep := by
  rw [cast_pow2, lastStep, show (971 : Int) = (971 : Nat) from rfl, zpow_natCast, ← pow_add]

theorem pow10_le_pow10 {j k : Nat} (h : j ≤ k) : pow10 j ≤ pow10 k :=
  Nat.pow_le_pow_right (by decide) h

theorem le_ten_pow {k : Nat} (hk : 308 < k) : 2 ^ 53 * lastStep ≤ (10 : ℚ) ^ k := by
  have h : pow2 1024 ≤ pow10 k :=
    Nat.le_trans (by decide +kernel : pow2 1024 ≤ pow10 309) (pow10_le_pow10 hk)
  rw [← cast_pow10, ← cast_pow2_end]
  exact_mod_cast h

/-- A quotient below a bound that leaves room for the error is rounded to some number. -/
theorem exists_ofRatio? (hd : 0 < den) {b : ℚ} (hx : (num : ℚ) / den ≤ b) (h1 : 1 ≤ b)
    (hb : b + b / 2 ^ 53 < 2 ^ 53 * lastStep) (negative : Bool) :
    ∃ y, ofRatio? negative num den = some y ∧
      |double.size y.place - num / den| ≤ max ((num : ℚ) / den) 1 / 2 ^ 53 := by
  have he := abs_size_nearest_sub_le num hd
  have hm : max ((num : ℚ) / den) 1 ≤ b := max_le hx h1
  have hlt : double.nearest num den < double.finite := by
    rw [← double.strictMono_size.lt_iff_lt]
    rw [size_end]
    have := (abs_le.1 he).2
    have : max ((num : ℚ) / den) 1 / 2 ^ 53 ≤ b / 2 ^ 53 :=
      div_le_div_of_nonneg_right hm (by positivity)
    linarith
  exact ⟨⟨negative, ⟨_, hlt⟩⟩, dif_pos hlt, he⟩

theorem cast_ratio (x : Binary64) : (x.ratio.1 : ℚ) / x.ratio.2 = double.size x.place :=
  cast_scale_magnitude x.place

theorem exists_mul? (x y : Binary64) {b : ℚ}
    (hx : double.size x.place * double.size y.place ≤ b)
    (h1 : 1 ≤ b) (hb : b + b / 2 ^ 53 < 2 ^ 53 * lastStep) : ∃ z, x.mul? y = some z := by
  rw [← cast_ratio, ← cast_ratio, div_mul_div_comm, ← Nat.cast_mul, ← Nat.cast_mul] at hx
  obtain ⟨z, hz, -⟩ := exists_ofRatio? (Nat.mul_pos x.ratio_pos y.ratio_pos) hx h1 hb
    (x.negative != y.negative)
  exact ⟨z, hz⟩

theorem exists_div? (x : Binary64) {y : Binary64} (hy : 0 < double.size y.place) {b : ℚ}
    (hx : double.size x.place / double.size y.place ≤ b) (h1 : 1 ≤ b)
    (hb : b + b / 2 ^ 53 < 2 ^ 53 * lastStep) :
    ∃ z, x.div? y = some z ∧ double.size z.place ≤ b + b / 2 ^ 53 := by
  have hd : 0 < y.ratio.1 := by
    rw [← cast_ratio] at hy
    exact_mod_cast (div_pos_iff_of_pos_right (Nat.cast_pos.2 y.ratio_pos)).1 hy
  rw [← cast_ratio, ← cast_ratio, div_div_div_eq, ← Nat.cast_mul, ← Nat.cast_mul] at hx
  obtain ⟨z, hz, he⟩ := exists_ofRatio? (Nat.mul_pos x.ratio_pos hd) hx h1 hb
    (x.negative != y.negative)
  refine ⟨z, hz, ?_⟩
  have := (abs_le.1 he).2
  have : max (((x.ratio.1 * y.ratio.2 : Nat) : ℚ) / (x.ratio.2 * y.ratio.1 : Nat)) 1 / 2 ^ 53 ≤
      b / 2 ^ 53 := div_le_div_of_nonneg_right (max_le hx h1) (by positivity)
  linarith

end Binary64

end RemoteCall.Numeric
