import RemoteCall.Numeric.Shortest
import Mathlib.Algebra.Order.Field.Power
import Mathlib.Data.Rat.Cast.Order
import Mathlib.Tactic.FieldSimp
import Mathlib.Tactic.Linarith
import Mathlib.Tactic.Positivity
import Mathlib.Tactic.Ring

/-!
The shortest digits of a number lie among what rounds to it. The search for them always ends with
some, and two numbers have no common ones: the decimal number that they spell tells the binary one.
-/

namespace RemoteCall.Numeric

theorem cast_pow2 (k : Nat) : (pow2 k : ℚ) = 2 ^ k := Nat.cast_pow 2 k

theorem cast_pow10 (k : Nat) : (pow10 k : ℚ) = 10 ^ k := Nat.cast_pow 10 k

theorem pow2_pos (k : Nat) : 0 < pow2 k := Nat.pow_pos (by decide)

/-! ### Magnitudes -/

namespace Format

variable (f : Format)

/-- The exact magnitude numbered `k`. -/
def size (k : Nat) : ℚ := (f.magnitude k).1 * 2 ^ (f.magnitude k).2

theorem magnitude_of_lt {k : Nat} (h : k < pow2 (f.precision - 1)) :
    f.magnitude k = (k, f.leastExponent) := by
  rw [magnitude, if_pos h]

theorem magnitude_of_eq {k q r : Nat} (hq : 0 < q) (hr : r < pow2 (f.precision - 1))
    (h : r + pow2 (f.precision - 1) * q = k) :
    f.magnitude k = (pow2 (f.precision - 1) + r, f.leastExponent + (q - 1 : Nat)) := by
  have hle : pow2 (f.precision - 1) ≤ pow2 (f.precision - 1) * q := Nat.le_mul_of_pos_right _ hq
  obtain ⟨hd, hm⟩ := (Nat.div_mod_unique (pow2_pos _)).2 ⟨h, hr⟩
  rw [magnitude, if_neg (by omega), hd, hm]

/-- From one magnitude to the next it is one unit in the last place. -/
theorem size_succ (k : Nat) : f.size (k + 1) = f.size k + 2 ^ (f.magnitude k).2 := by
  have hp := pow2_pos (f.precision - 1)
  rw [size, size]
  rcases Nat.lt_or_ge k (pow2 (f.precision - 1)) with hlt | hge
  · rw [f.magnitude_of_lt hlt]
    rcases Nat.lt_or_eq_of_le hlt with hlt | heq
    · rw [f.magnitude_of_lt hlt]
      push_cast
      ring
    · rw [f.magnitude_of_eq (q := 1) (r := 0) Nat.one_pos hp (by omega), ← heq, Nat.sub_self,
        Nat.cast_zero, add_zero, add_zero]
      push_cast
      ring
  · have hq : 0 < k / pow2 (f.precision - 1) := Nat.div_pos hge hp
    have hr := Nat.mod_lt k hp
    have hk := Nat.mod_add_div k (pow2 (f.precision - 1))
    generalize k % pow2 (f.precision - 1) = r at hr hk
    generalize k / pow2 (f.precision - 1) = q at hq hk
    rw [f.magnitude_of_eq hq hr hk]
    rcases Nat.lt_or_eq_of_le hr with hr | hr
    · rw [f.magnitude_of_eq hq hr (by omega)]
      push_cast
      ring
    · -- The significand is full, and the next magnitude has the least one of the next exponent.
      have hnext : 0 + pow2 (f.precision - 1) * (q + 1) = k + 1 := by
        rw [Nat.mul_add_one]
        omega
      have hexp : f.leastExponent + ((q + 1 - 1 : Nat) : Int) =
          f.leastExponent + ((q - 1 : Nat) : Int) + 1 := by omega
      rw [f.magnitude_of_eq (Nat.succ_pos q) hp hnext, hexp, zpow_add_one₀ two_ne_zero, ← hr]
      push_cast
      ring

theorem strictMono_size : StrictMono f.size :=
  strictMono_nat_of_lt_succ fun k => by
    rw [size_succ]
    exact lt_add_of_pos_right _ (zpow_pos two_pos _)

theorem size_zero : f.size 0 = 0 := by
  rw [size, f.magnitude_of_lt (pow2_pos _), Nat.cast_zero, zero_mul]

/-- The significand of a magnitude has no more bits than the precision. -/
theorem magnitude_lt (k : Nat) : (f.magnitude k).1 < 2 * pow2 (f.precision - 1) := by
  have hp := pow2_pos (f.precision - 1)
  have hr := Nat.mod_lt k hp
  rw [magnitude]
  split
  · omega
  · simp only
    omega

/-- A number lies between the middles from a magnitude to its neighbours, and off the middles where
the place of the magnitude is odd. -/
structure Rounds (q : ℚ) (k : Nat) : Prop where
  le : q ≤ (f.size k + f.size (k + 1)) / 2
  lt : k % 2 = 1 → q < (f.size k + f.size (k + 1)) / 2
  ge : k ≠ 0 → (f.size (k - 1) + f.size k) / 2 ≤ q
  gt : k % 2 = 1 → (f.size (k - 1) + f.size k) / 2 < q

variable {f} {p q : ℚ} {j k : Nat}

theorem Rounds.lt_of_lt (hp : f.Rounds p j) (hq : f.Rounds q k) (h : j < k) : p < q := by
  have hge := hq.ge (Nat.ne_of_gt (Nat.lt_of_le_of_lt (Nat.zero_le _) h))
  obtain ⟨d, hd⟩ := Nat.exists_eq_add_of_lt h
  cases d with
  | zero =>
    -- The two are neighbours, and the odd one of them is off the middle.
    rw [Nat.add_zero] at hd
    subst hd
    rcases Nat.mod_two_eq_zero_or_one j with he | ho
    · exact hp.le.trans_lt (hq.gt (by omega))
    · exact (hp.lt ho).trans_le hge
  | succ d =>
    have hlow := f.strictMono_size (show j < k - 1 by omega)
    have hhigh := f.strictMono_size (show j + 1 < k by omega)
    linarith [hp.le]

theorem Rounds.unique (hj : f.Rounds q j) (hk : f.Rounds q k) : j = k := by
  rcases Nat.lt_trichotomy j k with hlt | heq | hgt
  · exact absurd (hj.lt_of_lt hk hlt) (lt_irrefl q)
  · exact heq
  · exact absurd (hk.lt_of_lt hj hgt) (lt_irrefl q)

end Format

/-! ### Intervals -/

theorem scale_div (num den : Nat) (e : Int) :
    ((scale num den e).1 : ℚ) / (scale num den e).2 = num / den * 2 ^ e := by
  rw [scale]
  split
  · next h =>
    obtain ⟨k, rfl⟩ := Int.eq_ofNat_of_zero_le h
    simp only [Int.toNat_natCast, Nat.cast_mul, cast_pow2, zpow_natCast]
    ring
  · next h =>
    obtain ⟨k, hk⟩ := Int.eq_ofNat_of_zero_le (show 0 ≤ -e by omega)
    obtain rfl : e = -(k : Int) := by omega
    simp only [neg_neg, Int.toNat_natCast, Nat.cast_mul, cast_pow2, zpow_neg, zpow_natCast]
    rw [← div_div, div_eq_mul_inv (_ / _)]

theorem exists_scale_eq_pow2 (m : Nat) (e : Int) : ∃ j, (scale m 1 e).2 = pow2 j := by
  rw [scale]
  split
  · exact ⟨0, rfl⟩
  · exact ⟨_, Nat.one_mul _⟩

theorem mul_div_div {n d m : Nat} (hd : d ∣ m) (hm : 0 < m) :
    ((n * (m / d) : Nat) : ℚ) / m = (n : ℚ) / d := by
  obtain ⟨c, rfl⟩ := hd
  have hd : 0 < d := Nat.pos_of_mul_pos_right hm
  have hc : 0 < c := Nat.pos_of_mul_pos_left hm
  rw [Nat.mul_div_cancel_left c hd]
  push_cast
  field_simp

theorem max_pow2 (i j : Nat) : max (pow2 i) (pow2 j) = pow2 (max i j) :=
  (Monotone.map_max fun _ _ h => Nat.pow_le_pow_right (by decide) h).symm

theorem pow2_dvd {i j : Nat} (h : i ≤ j) : pow2 i ∣ pow2 j := Nat.pow_dvd_pow 2 h

namespace Binary64

open Format (double)

theorem cast_scale_magnitude (k : Nat) :
    ((scale (double.magnitude k).1 1 (double.magnitude k).2).1 : ℚ) /
      (scale (double.magnitude k).1 1 (double.magnitude k).2).2 = double.size k := by
  rw [scale_div, Nat.cast_one, div_one]
  rfl

/-- The ends of an interval lie halfway to the neighbours of the number in it. -/
structure Interval.Surrounds (i : Interval) (low mid high : ℚ) : Prop where
  den : 0 < i.den
  low : (i.low : ℚ) / i.den = low
  mid : (i.mid : ℚ) / i.den = mid
  high : (i.high : ℚ) / i.den = high

theorem surrounds_interval (x : Binary64) :
    x.interval.Surrounds ((double.size (x.place - 1) + double.size x.place) / 2)
      (double.size x.place) ((double.size x.place + double.size (x.place + 1)) / 2) := by
  have hs (k : Nat) := exists_scale_eq_pow2 (double.magnitude k).1 (double.magnitude k).2
  obtain ⟨j₀, hd₀⟩ := hs (x.place - 1)
  obtain ⟨j₁, hd₁⟩ := hs x.place
  obtain ⟨j₂, hd₂⟩ := hs (x.place + 1)
  have hq₀ := cast_scale_magnitude (x.place - 1)
  have hq₁ := cast_scale_magnitude x.place
  have hq₂ := cast_scale_magnitude (x.place + 1)
  have hmax : max (pow2 j₀) (max (pow2 j₁) (pow2 j₂)) = pow2 (max j₀ (max j₁ j₂)) := by
    rw [max_pow2, max_pow2]
  have hm := pow2_pos (max j₀ (max j₁ j₂))
  have h₀ (n : Nat) := mul_div_div (n := n) (pow2_dvd (Nat.le_max_left j₀ (max j₁ j₂))) hm
  have h₁ (n : Nat) := mul_div_div (n := n)
    (pow2_dvd (le_trans (Nat.le_max_left j₁ j₂) (Nat.le_max_right j₀ _))) hm
  have h₂ (n : Nat) := mul_div_div (n := n)
    (pow2_dvd (le_trans (Nat.le_max_right j₁ j₂) (Nat.le_max_right j₀ _))) hm
  rw [hd₀] at hq₀
  rw [hd₁] at hq₁
  rw [hd₂] at hq₂
  have hhalf (a b : Nat) {d : Nat} :
      ((a + b : Nat) : ℚ) / (2 * d : Nat) = ((a : ℚ) / d + (b : ℚ) / d) / 2 := by
    push_cast
    ring
  simp only [interval, hd₀, hd₁, hd₂, hmax]
  refine ⟨by positivity, ?_, ?_, ?_⟩
  · rw [hhalf, h₀, h₁, hq₀, hq₁]
  · rw [Nat.two_mul, hhalf, h₁, hq₁, ← two_mul, mul_div_cancel_left₀ _ two_ne_zero]
  · rw [hhalf, h₁, h₂, hq₁, hq₂]

end Binary64

/-! ### Points of a grid -/

namespace Digits

/-- The decimal number of some digits. -/
def value (d : Digits) : ℚ := d.digits * 10 ^ d.exponent

theorem value_strip (fuel : Nat) (d : Digits) : (strip fuel d).value = d.value := by
  induction fuel generalizing d with
  | zero => rfl
  | succ fuel ih =>
    rw [strip]
    split
    · next h =>
      rw [ih]
      have hd : (d.digits : ℚ) = (d.digits / 10 : Nat) * 10 := by
        exact_mod_cast (Nat.div_mul_cancel (Nat.dvd_of_mod_eq_zero h.1)).symm
      rw [value, value, hd, zpow_add_one₀ (by norm_num)]
      ring
    · rfl

end Digits

namespace Binary64

open Format (double)

/-- A number lies in an interval, whose ends belong to it where the place is even. -/
def Interval.Holds (i : Interval) (even : Bool) (q : ℚ) : Prop :=
  if even then i.low ≤ q * i.den ∧ q * i.den ≤ i.high
  else i.low < q * i.den ∧ q * i.den < i.high

theorem exists_perTen (e : Int) : ∃ c : ℚ, 0 < c ∧ ∀ num den,
    ((perTen num den e).1 : ℚ) = c * num ∧
      ((perTen num den e).2 : ℚ) = c * (10 ^ e * den) := by
  by_cases h : 0 ≤ e
  · refine ⟨1, one_pos, fun num den => ?_⟩
    obtain ⟨k, rfl⟩ := Int.eq_ofNat_of_zero_le h
    rw [perTen, if_pos h]
    simp [cast_pow10, mul_comm]
  · refine ⟨10 ^ (-e), zpow_pos (by norm_num) _, fun num den => ?_⟩
    obtain ⟨k, hk⟩ := Int.eq_ofNat_of_zero_le (show 0 ≤ -e by omega)
    obtain rfl : e = -(k : Int) := by omega
    rw [perTen, if_neg h, ← mul_assoc, ← zpow_add₀ (by norm_num)]
    simp [cast_pow10, mul_comm]

theorem reads_iff (even : Bool) (i : Interval) (e : Int) (n : Nat) :
    (if even then
        (perTen i.low i.den e).1 ≤ n * (perTen i.mid i.den e).2 &&
          n * (perTen i.mid i.den e).2 ≤ (perTen i.high i.den e).1
      else
        (perTen i.low i.den e).1 < n * (perTen i.mid i.den e).2 &&
          n * (perTen i.mid i.den e).2 < (perTen i.high i.den e).1) = true ↔
      i.Holds even (Digits.value ⟨n, e⟩) := by
  obtain ⟨c, hc, ht⟩ := exists_perTen e
  have hle (a b : Nat) : a ≤ b ↔ (a : ℚ) ≤ b := Nat.cast_le.symm
  have hlt (a b : Nat) : a < b ↔ (a : ℚ) < b := Nat.cast_lt.symm
  have hn : (n : ℚ) * (c * (10 ^ e * i.den)) = c * (Digits.value ⟨n, e⟩ * i.den) := by
    rw [Digits.value]
    ring
  cases even with
  | true =>
    simp only [if_true, Bool.and_eq_true, decide_eq_true_eq, hle, Nat.cast_mul, ht, hn,
      mul_le_mul_iff_right₀ hc, Interval.Holds]
  | false =>
    simp only [Bool.false_eq_true, if_false, Bool.and_eq_true, decide_eq_true_eq, hlt, Nat.cast_mul,
      ht, hn, mul_lt_mul_iff_right₀ hc, Interval.Holds]

/-- A point of the grid that the search yields reads back. -/
theorem holds_of_onGrid? {even : Bool} {i : Interval} {e : Int} {d : Digits}
    (h : onGrid? even i e = some d) : i.Holds even d.value := by
  simp only [onGrid?] at h
  split at h
  · next hb ha =>
    rw [reads_iff] at ha hb
    cases h
    split
    · exact hb
    · exact ha
  · next hb _ =>
    rw [reads_iff] at hb
    cases h
    exact hb
  · next _ ha =>
    rw [reads_iff] at ha
    cases h
    exact ha
  · cases h

section

variable {i : Interval} {low mid high : ℚ}

theorem Interval.Surrounds.holds_iff (hi : i.Surrounds low mid high) (even : Bool) (q : ℚ) :
    i.Holds even q ↔ if even then low ≤ q ∧ q ≤ high else low < q ∧ q < high := by
  have hd : (0 : ℚ) < i.den := Nat.cast_pos.2 hi.den
  rw [Interval.Holds, ← hi.low, ← hi.high, div_le_iff₀ hd, le_div_iff₀ hd, div_lt_iff₀ hd,
    lt_div_iff₀ hd]

/-- On a grid that is finer than the way to the upper end some point reads back. -/
theorem onGrid?_ne_none {even : Bool} {e : Int} (hi : i.Surrounds low mid high) (hl : low < mid)
    (hh : mid + 10 ^ e < high) : onGrid? even i e ≠ none := by
  have hd : (0 : ℚ) < i.den := Nat.cast_pos.2 hi.den
  obtain ⟨c, hc, ht⟩ := exists_perTen e
  obtain ⟨hm, hp⟩ := ht i.mid i.den
  have hpos : 0 < (perTen i.mid i.den e).2 := by
    rw [← Nat.cast_pos (α := ℚ), hp]
    positivity
  have hmid : ((perTen i.mid i.den e).1 : ℚ) = mid / 10 ^ e * (perTen i.mid i.den e).2 := by
    rw [hm, hp, ← hi.mid]
    field_simp
  have hten : (0 : ℚ) < 10 ^ e := by positivity
  have hbelow :
      (((perTen i.mid i.den e).1 / (perTen i.mid i.den e).2 : Nat) : ℚ) * 10 ^ e ≤ mid := by
    rw [← le_div_iff₀ hten, ← mul_le_mul_iff_left₀ (Nat.cast_pos.2 hpos), ← hmid]
    exact_mod_cast Nat.div_mul_le_self _ _
  have habove :
      mid < (((perTen i.mid i.den e).1 / (perTen i.mid i.den e).2 : Nat) + 1 : ℚ) * 10 ^ e := by
    rw [← div_lt_iff₀ hten, ← mul_lt_mul_iff_left₀ (Nat.cast_pos.2 hpos), ← hmid,
      add_one_mul]
    exact_mod_cast Nat.lt_div_mul_add hpos
  obtain ⟨n, hn⟩ : ∃ n, (perTen i.mid i.den e).1 / (perTen i.mid i.den e).2 = n :=
    ⟨_, rfl⟩
  rw [hn] at hbelow habove
  -- The first point above the number is at most one step away.
  have hreads : i.Holds even (Digits.value ⟨n + 1, e⟩) := by
    have hlow : low < Digits.value ⟨n + 1, e⟩ := by
      rw [Digits.value]
      push_cast
      linarith
    have hhigh : Digits.value ⟨n + 1, e⟩ < high := by
      rw [Digits.value]
      push_cast
      linarith
    rw [hi.holds_iff]
    split
    · exact ⟨hlow.le, hhigh.le⟩
    · exact ⟨hlow, hhigh⟩
  simp only [onGrid?, hn]
  split
  · nofun
  · nofun
  · nofun
  · next hr => cases hr.symm.trans ((reads_iff even i e (n + 1)).2 hreads)

theorem holds_of_shortestFrom {even : Bool} {grids : Nat} {e : Int} {d : Digits}
    (h : shortestFrom even i grids e = some d) : i.Holds even d.value := by
  induction grids generalizing e with
  | zero => cases h
  | succ grids ih =>
    rw [shortestFrom] at h
    split at h
    · next hd =>
      cases h
      exact holds_of_onGrid? hd
    · exact ih h

theorem shortestFrom_ne_none {even : Bool} {grids : Nat} {e : Int}
    (hi : i.Surrounds low mid high) (hl : low < mid) (hh : mid + 10 ^ (e - grids) < high) :
    shortestFrom even i (grids + 1) e ≠ none := by
  induction grids generalizing e with
  | zero =>
    rw [Nat.cast_zero, sub_zero] at hh
    rw [shortestFrom]
    split
    · nofun
    · next hn => exact absurd hn (onGrid?_ne_none hi hl hh)
  | succ grids ih =>
    rw [shortestFrom]
    split
    · nofun
    · refine ih ?_
      have he : e - 1 - (grids : Int) = e - (grids + 1 : Nat) := by
        push_cast
        ring
      rwa [he]

end

/-! ### Shortest digits -/

theorem lt_pow_length_decimalDigits (n : Nat) : n < 10 ^ (decimalDigits n).length := by
  have hpos : 0 < (decimalDigits n).length := List.length_pos_of_ne_nil Nat.toDigits_ne_nil
  exact (Nat.length_toDigits_le_iff (by decide) hpos).1 le_rfl

theorem pow_length_decimalDigits_le {n : Nat} (h : 0 < n) :
    10 ^ ((decimalDigits n).length - 1) ≤ n := by
  by_contra hlt
  rw [Nat.not_le] at hlt
  rcases Nat.eq_zero_or_pos ((decimalDigits n).length - 1) with hz | hp
  · rw [hz] at hlt
    omega
  · have hle := (Nat.length_toDigits_le_iff (by decide) hp).2 hlt
    rw [decimalDigits] at hp hle
    omega

/-- The place above the first digit of a quotient, told from the digits of it or of its inverse. -/
theorem pow_first_le {num den : Nat} (hn : 0 < num) (hd : 0 < den) :
    (10 : ℚ) ^ ((if den ≤ num then ((decimalDigits (num / den)).length : Int)
      else 1 - (decimalDigits (den / num)).length) - 1) ≤ (num : ℚ) / den := by
  have hd' : (0 : ℚ) < den := Nat.cast_pos.2 hd
  have hn' : (0 : ℚ) < num := Nat.cast_pos.2 hn
  split
  · next h =>
    have hq := pow_length_decimalDigits_le (Nat.div_pos h hd)
    have hl : 0 < (decimalDigits (num / den)).length :=
      List.length_pos_of_ne_nil Nat.toDigits_ne_nil
    obtain ⟨l, hl⟩ := Nat.exists_eq_add_one.2 hl
    rw [hl, Nat.add_sub_cancel] at hq
    rw [hl, Nat.cast_succ, add_sub_cancel_right, zpow_natCast, le_div_iff₀ hd']
    exact_mod_cast (Nat.mul_le_mul_right den hq).trans (Nat.div_mul_le_self num den)
  · have hq := Nat.succ_le_of_lt (lt_pow_length_decimalDigits (den / num))
    have hlt : den < (den / num + 1) * num := by
      rw [Nat.add_one_mul]
      exact Nat.lt_div_mul_add hn
    have hle : (den : ℚ) ≤ 10 ^ (decimalDigits (den / num)).length * num := by
      exact_mod_cast (hlt.trans_le (Nat.mul_le_mul_right num hq)).le
    rw [sub_sub_cancel_left, zpow_neg, zpow_natCast, inv_le_comm₀ (by positivity) (by positivity),
      inv_div, div_le_iff₀ hn']
    exact hle

/-- The digits of a positive number read back as it. -/
theorem holds_shortest {x : Binary64} (h : x.place.val ≠ 0) :
    x.interval.Holds (x.place.val % 2 == 0) x.shortest.value := by
  have hi := x.surrounds_interval
  have hpos : 0 < double.size x.place := by
    rw [← double.size_zero]
    exact double.strictMono_size (Nat.pos_of_ne_zero h)
  have hlow : double.size (x.place - 1) < double.size x.place :=
    double.strictMono_size (Nat.sub_one_lt h)
  have hden : (0 : ℚ) < x.interval.den := Nat.cast_pos.2 hi.den
  have hmid : 0 < x.interval.mid := by
    have hm := hi.mid ▸ hpos
    exact_mod_cast (div_pos_iff_of_pos_right hden).1 hm
  have hfirst := pow_first_le hmid hi.den
  rw [hi.mid] at hfirst
  obtain ⟨first, hf⟩ : ∃ first, (if x.interval.den ≤ x.interval.mid then
      ((decimalDigits (x.interval.mid / x.interval.den)).length : Int)
      else 1 - (decimalDigits (x.interval.den / x.interval.mid)).length) = first := ⟨_, rfl⟩
  rw [hf] at hfirst
  have hne : shortestFrom (x.place.val % 2 == 0) x.interval 20 first ≠ none := by
    refine shortestFrom_ne_none hi (by linarith) ?_
    -- Nineteen places below the first digit a step is less than half a unit in the last place.
    have hunit : (0 : ℚ) < 2 ^ (double.magnitude x.place).2 := by positivity
    have hsig : ((double.magnitude x.place).1 : ℚ) < 2 ^ 53 := by
      exact_mod_cast double.magnitude_lt x.place
    have hsize : double.size x.place < 2 ^ 53 * 2 ^ (double.magnitude x.place).2 :=
      mul_lt_mul_of_pos_right hsig hunit
    have hstep : (10 : ℚ) ^ (first - (19 : Nat)) = 10 ^ (first - 1) / 10 ^ 18 := by
      rw [← zpow_natCast, ← zpow_sub₀ (by norm_num)]
      congr 1
      push_cast
      ring
    rw [hstep, double.size_succ]
    linarith
  rw [shortest, if_neg h]
  simp only [hf]
  split
  · next d hd =>
    rw [Digits.value_strip]
    exact holds_of_shortestFrom hd
  · next hn => exact absurd hn hne

theorem value_shortest_of_zero {x : Binary64} (h : x.place.val = 0) : x.shortest.value = 0 := by
  rw [shortest, if_pos h, Digits.value, Nat.cast_zero, zero_mul]

/-- The shortest digits of a number round to it. -/
theorem rounds_shortest (x : Binary64) : double.Rounds x.shortest.value x.place := by
  by_cases h : x.place.val = 0
  · have hpos := double.strictMono_size Nat.one_pos
    rw [value_shortest_of_zero h, h]
    rw [double.size_zero] at hpos
    have hn : ¬ 0 % 2 = 1 := by decide
    refine ⟨?_, fun ho => absurd ho hn, fun h => absurd rfl h, fun ho => absurd ho hn⟩
    rw [double.size_zero]
    linarith
  · have hh := (x.surrounds_interval.holds_iff _ _).1 (holds_shortest h)
    split at hh
    · next he =>
      have hn : ¬ x.place.val % 2 = 1 := by
        rw [beq_iff_eq.1 he]
        decide
      exact ⟨hh.2, fun ho => absurd ho hn, fun _ => hh.1, fun ho => absurd ho hn⟩
    · exact ⟨hh.2.le, fun _ => hh.2, fun _ => hh.1.le, fun _ => hh.1⟩

/-- The shortest digits of a number tell its magnitude. -/
theorem place_eq_of_value_shortest {x y : Binary64} (h : x.shortest.value = y.shortest.value) :
    x.place = y.place :=
  Fin.ext (x.rounds_shortest.unique (h ▸ y.rounds_shortest))

end Binary64

end RemoteCall.Numeric
