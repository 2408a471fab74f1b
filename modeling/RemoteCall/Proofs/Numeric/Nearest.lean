import RemoteCall.Proofs.Numeric.Rounding

/-!
The magnitude nearest to a number. Main statement: a quotient is rounded to the place of the nearest
magnitude, of two that are equally near to the even place, and to no other.
-/

namespace RemoteCall.Numeric

namespace Format

/-- Of all magnitudes, be they past the largest one, none is nearer to a number than the one at this
place, and if another is as near then this place is even. -/
structure Nearest (f : Format) (x : ℚ) (k : Nat) : Prop where
  nearest : ∀ j, |f.size k - x| ≤ |f.size j - x|
  even : ∀ j, j ≠ k → |f.size j - x| = |f.size k - x| → k % 2 = 0

variable {f : Format} {x : ℚ} {j k : Nat}

/-! ### Middles between neighbours -/

/-- Up to the middle between two numbers the lower one is not farther away. -/
theorem abs_sub_le_iff_le_middle {a b : ℚ} (h : a < b) :
    |a - x| ≤ |b - x| ↔ x ≤ (a + b) / 2 := by
  constructor
  · intro hx
    rcases le_total x b with hb | hb
    · rw [abs_of_nonneg (sub_nonneg.2 hb)] at hx
      linarith [(abs_le.1 hx).1]
    · rw [abs_of_nonpos (sub_nonpos.2 hb)] at hx
      linarith [(abs_le.1 hx).1]
  · intro hx
    refine le_trans ?_ (le_abs_self _)
    rw [abs_le]
    constructor <;> linarith

theorem abs_sub_lt_iff_lt_middle {a b : ℚ} (h : a < b) :
    |b - x| < |a - x| ↔ (a + b) / 2 < x := by
  rw [← not_le, abs_sub_le_iff_le_middle h, not_le]

/-- The same from above. -/
theorem abs_sub_le_iff_middle_le {a b : ℚ} (h : a < b) :
    |b - x| ≤ |a - x| ↔ (a + b) / 2 ≤ x := by
  have hn := abs_sub_le_iff_le_middle (x := -x) (neg_lt_neg h)
  rw [neg_sub_neg, neg_sub_neg, abs_sub_comm x b, abs_sub_comm x a] at hn
  rw [hn]
  constructor <;> intro hx <;> linarith

theorem abs_sub_lt_iff_middle_lt {a b : ℚ} (h : a < b) :
    |a - x| < |b - x| ↔ x < (a + b) / 2 := by
  rw [← not_le, abs_sub_le_iff_middle_le h, not_le]

theorem Nearest.rounds (h : f.Nearest x k) : f.Rounds x k := by
  have hup := f.strictMono_size (Nat.lt_succ_self k)
  have hne (ho : k % 2 = 1) {j : Nat} (hj : j ≠ k) : |f.size j - x| ≠ |f.size k - x| := by
    intro he
    have := h.even j hj he
    omega
  refine ⟨?_, fun ho => ?_, fun hk => ?_, fun ho => ?_⟩
  · exact (abs_sub_le_iff_le_middle hup).1 (h.nearest _)
  · rw [← abs_sub_lt_iff_middle_lt hup]
    exact lt_of_le_of_ne (h.nearest _) (hne ho (Nat.succ_ne_self k)).symm
  · exact (abs_sub_le_iff_middle_le (f.strictMono_size (Nat.sub_one_lt hk))).1 (h.nearest _)
  · have hk : k ≠ 0 := by omega
    rw [← abs_sub_lt_iff_lt_middle (f.strictMono_size (Nat.sub_one_lt hk))]
    exact lt_of_le_of_ne (h.nearest _) (hne ho (by omega)).symm

theorem Nearest.unique (hj : f.Nearest x j) (hk : f.Nearest x k) : j = k :=
  hj.rounds.unique hk.rounds

/-- Other magnitudes lie farther away than the neighbours. -/
theorem Rounds.nearest (h : f.Rounds x k) : f.Nearest x k := by
  have hle : ∀ j, |f.size k - x| ≤ |f.size j - x| ∧
      (k % 2 = 1 → j ≠ k → |f.size k - x| < |f.size j - x|) := by
    intro j
    rcases Nat.lt_trichotomy j k with hlt | rfl | hgt
    · have hj := f.strictMono_size hlt
      have hm := f.strictMono_size.monotone (show j ≤ k - 1 by omega)
      rw [abs_sub_le_iff_middle_le hj, abs_sub_lt_iff_lt_middle hj]
      exact ⟨by linarith [h.ge (by omega)], fun ho _ => by linarith [h.gt ho]⟩
    · exact ⟨le_refl _, fun _ hn => absurd rfl hn⟩
    · have hj := f.strictMono_size hgt
      have hm := f.strictMono_size.monotone (show k + 1 ≤ j by omega)
      rw [abs_sub_le_iff_le_middle hj, abs_sub_lt_iff_middle_lt hj]
      exact ⟨by linarith [h.le], fun ho _ => by linarith [h.lt ho]⟩
  refine ⟨fun j => (hle j).1, fun j hj he => ?_⟩
  by_contra hn
  have hlt := (hle j).2 (by omega) hj
  rw [he] at hlt
  exact lt_irrefl _ hlt

/-! ### Rounded quotients -/

/-- The last place of a magnitude, told from a significand that may be longer than the precision. -/
theorem le_exponent {q j : Nat} (hj : 0 < j → pow2 (f.precision - 1) ≤ q) :
    f.leastExponent + j ≤ (f.magnitude (q + j * pow2 (f.precision - 1))).2 := by
  have hp := pow2_pos (f.precision - 1)
  rcases Nat.lt_or_ge q (pow2 (f.precision - 1)) with hlt | hge
  · obtain rfl : j = 0 := by
      by_contra hn
      exact absurd (hj (Nat.pos_of_ne_zero hn)) (Nat.not_le.2 hlt)
    rw [Nat.zero_mul, Nat.add_zero, f.magnitude_of_lt hlt]
    exact Int.le_of_eq (Int.add_zero _)
  · have hk := Nat.mod_add_div (q + j * pow2 (f.precision - 1)) (pow2 (f.precision - 1))
    have hd : j + 1 ≤ (q + j * pow2 (f.precision - 1)) / pow2 (f.precision - 1) := by
      rw [Nat.add_mul_div_right _ _ hp]
      have := Nat.div_pos hge hp
      omega
    rw [f.magnitude_of_eq (by omega) (Nat.mod_lt _ hp) hk]
    dsimp only
    omega

theorem rounds_zero : f.Rounds 0 0 := by
  have hpos := f.strictMono_size Nat.one_pos
  rw [f.size_zero] at hpos
  have hn : ¬ 0 % 2 = 1 := by decide
  refine ⟨?_, fun ho => absurd ho hn, fun h => absurd rfl h, fun ho => absurd ho hn⟩
  rw [f.size_zero]
  linarith

variable {num den q : Nat}

/-- From a significand upward it is at least one unit in the last place. -/
theorem Significand.add_unit_le (h : f.Significand num den q j) :
    f.size (q + j * pow2 (f.precision - 1)) + 2 ^ f.lastPlace num den ≤
      f.size (q + j * pow2 (f.precision - 1) + 1) := by
  rw [f.size_succ, h.place]
  exact add_le_add_right (zpow_le_zpow_right₀ one_le_two (le_exponent h.bounds.2)) _

/-- Downward it is at least one unit as well, unless the significand is the least one of its
exponent. The quotient is then not below it. -/
theorem Significand.unit_le_or (h : f.Significand num den q j)
    (hk : q + j * pow2 (f.precision - 1) ≠ 0) :
    f.size (q + j * pow2 (f.precision - 1) - 1) + 2 ^ f.lastPlace num den ≤
        f.size (q + j * pow2 (f.precision - 1)) ∨
      f.size (q + j * pow2 (f.precision - 1)) ≤ num / den := by
  have hj := h.bounds.2
  by_cases hleast : 0 < j ∧ q = pow2 (f.precision - 1)
  · right
    have hunit : (0 : ℚ) < 2 ^ f.lastPlace num den := by positivity
    have hx := h.normal hleast.1
    rw [le_div_iff₀ hunit, ← hleast.2] at hx
    rwa [h.size_eq]
  · left
    have hpos : 0 < q := by
      rcases Nat.eq_zero_or_pos j with hz | hp
      · rw [hz, Nat.zero_mul, Nat.add_zero] at hk
        exact Nat.pos_of_ne_zero hk
      · exact (pow2_pos _).trans_le (hj hp)
    obtain ⟨q, rfl⟩ := Nat.exists_eq_add_one.2 hpos
    have hpred : q + 1 + j * pow2 (f.precision - 1) - 1 = q + j * pow2 (f.precision - 1) := by
      omega
    have hsucc : q + 1 + j * pow2 (f.precision - 1) = q + j * pow2 (f.precision - 1) + 1 := by
      omega
    rw [hpred, hsucc, f.size_succ, h.place]
    refine add_le_add_right (zpow_le_zpow_right₀ one_le_two (le_exponent ?_)) _
    intro hp
    have := hj hp
    omega

theorem Significand.rounds (h : f.Significand num den q j) (hp : 2 ≤ f.precision) :
    f.Rounds (num / den) (q + j * pow2 (f.precision - 1)) := by
  have hunit : (0 : ℚ) < 2 ^ f.lastPlace num den := by positivity
  have heven : (q + j * pow2 (f.precision - 1)) % 2 = q % 2 := by
    obtain ⟨p, hp⟩ : ∃ p, f.precision - 1 = p + 1 := ⟨f.precision - 2, by omega⟩
    have hhalf : pow2 (p + 1) = 2 * pow2 p := Nat.pow_succ'
    rw [hp, hhalf, Nat.mul_left_comm, Nat.add_mul_mod_self_left]
  have hnear := abs_units_sub (f.lastPlace num den) q (num / den)
  rw [← h.size_eq] at hnear
  have hle : |f.size (q + j * pow2 (f.precision - 1)) - num / den| ≤
      1 / 2 * 2 ^ f.lastPlace num den := by
    rw [hnear]
    exact mul_le_mul_of_nonneg_right h.near hunit.le
  have hlt (ho : (q + j * pow2 (f.precision - 1)) % 2 = 1) :
      |f.size (q + j * pow2 (f.precision - 1)) - num / den| <
        1 / 2 * 2 ^ f.lastPlace num den := by
    rw [hnear]
    exact mul_lt_mul_of_pos_right (h.even (heven ▸ ho)) hunit
  have hup := h.add_unit_le
  refine ⟨?_, fun ho => ?_, fun hk => ?_, fun ho => ?_⟩
  · linarith [(abs_le.1 hle).1]
  · linarith [(abs_lt.1 (hlt ho)).1]
  · have hdown := f.strictMono_size (Nat.sub_one_lt hk)
    rcases h.unit_le_or hk with hd | hd
    · linarith [(abs_le.1 hle).2]
    · linarith
  · have hk : q + j * pow2 (f.precision - 1) ≠ 0 := by omega
    have hdown := f.strictMono_size (Nat.sub_one_lt hk)
    rcases h.unit_le_or hk with hd | hd
    · linarith [(abs_lt.1 (hlt ho)).2]
    · linarith

theorem rounds_nearest (hp : 2 ≤ f.precision) (num : Nat) (hd : 0 < den) :
    f.Rounds (num / den) (f.nearest num den) := by
  rcases Nat.eq_zero_or_pos num with rfl | hn
  · rw [Format.nearest, if_pos rfl, Nat.cast_zero, zero_div]
    exact rounds_zero
  · obtain ⟨q, j, hq, h⟩ := f.exists_significand hn hd
    rw [hq]
    exact h.rounds hp

/-- A quotient is rounded to the place of the nearest magnitude. -/
theorem nearest_eq_iff (hp : 2 ≤ f.precision) (hd : 0 < den) :
    f.nearest num den = k ↔ f.Nearest (num / den) k := by
  constructor
  · rintro rfl
    exact (rounds_nearest hp num hd).nearest
  · exact fun h => (rounds_nearest hp num hd).unique h.rounds

end Format

end RemoteCall.Numeric
