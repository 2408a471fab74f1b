import RemoteCall.Proofs.Json.RoundTrip
import RemoteCall.Proofs.Numeric.Rounding

/-!
Reading back what was written, fractions included. The reader rounds three times where it makes a
number of digits and a power of ten, and so may yield a neighbour of the number that was written;
but no number is written in such a way that the reader passes the largest one. Main statement: the
text of every value that is not nested too deep is read as some value.
-/

namespace RemoteCall.Json

open Numeric
open Numeric.Format (double)
open Numeric.Binary64 (cast_pow2_end lastStep le_ten_pow pow10_le_pow10)

/-! ### Powers of ten -/

theorem pow_le_lastStep : (2 : ℚ) ^ 100 ≤ lastStep := by
  rw [lastStep]
  exact zpow_le_zpow_right₀ one_le_two (by decide : (100 : Int) ≤ 971)

variable {k : Nat}

theorem ten_pow_le (hk : k ≤ 308) : (10 : ℚ) ^ k * 5 ≤ 3 * (2 ^ 53 * lastStep) := by
  have h : pow10 k * 5 ≤ 3 * pow2 1024 :=
    (Nat.mul_le_mul_right 5 (pow10_le_pow10 hk)).trans (by decide +kernel)
  rw [← cast_pow10, ← cast_pow2_end]
  exact_mod_cast h

theorem exists_tenPower? (hk : k ≤ 308) :
    ∃ y, tenPower? k = some y ∧ |double.size y.place - 10 ^ k| ≤ 10 ^ k / 2 ^ 53 := by
  have h1 : (1 : ℚ) ≤ 10 ^ k := one_le_pow₀ (by norm_num)
  have hx : ((pow10 k : Nat) : ℚ) / (1 : Nat) = 10 ^ k := by
    rw [cast_pow10, Nat.cast_one, div_one]
  obtain ⟨y, hy, he⟩ := Binary64.exists_ofRatio? Nat.one_pos hx.le h1
    (by linarith [ten_pow_le hk, pow_le_lastStep]) false
  rw [hx, max_eq_left h1] at he
  exact ⟨y, hy, he⟩

/-! ### Significands and exponents -/

theorem exists_shrink (k : Nat) {x : Binary64} (hx : double.size x.place ≤ 2 ^ 66) :
    ∃ y, shrink x k = some y := by
  have hl := pow_le_lastStep
  induction k using Nat.strongRecOn generalizing x with
  | ind k ih =>
    rw [shrink]
    split
    · next hk =>
      obtain ⟨y, hy, he⟩ := exists_tenPower? hk
      have h1 : (1 : ℚ) ≤ 10 ^ k := one_le_pow₀ (by norm_num)
      have hhalf : 1 / 2 ≤ double.size y.place := by
        have := (abs_le.1 he).1
        linarith
      have hpos : 0 < double.size y.place := by linarith
      obtain ⟨z, hz, -⟩ := Binary64.exists_div? x (b := 2 ^ 67) hpos
        (by rw [div_le_iff₀ hpos]; linarith) (by norm_num) (by linarith)
      exact ⟨z, by rw [hy]; exact hz⟩
    · next hk =>
      split
      · exact ⟨x, rfl⟩
      · obtain ⟨y, hy, he⟩ := exists_tenPower? le_rfl
        have h1 : (10 : ℚ) ^ 1 ≤ 10 ^ 308 := pow_le_pow_right₀ (by norm_num) (by decide)
        generalize (10 : ℚ) ^ 308 = ten at he h1
        have htwo : 2 ≤ double.size y.place := by
          have := (abs_le.1 he).1
          linarith
        have hpos : 0 < double.size y.place := by linarith
        obtain ⟨z, hz, hs⟩ := Binary64.exists_div? x (b := 2 ^ 65) hpos
          (by rw [div_le_iff₀ hpos]; linarith) (by norm_num) (by linarith)
        obtain ⟨w, hw⟩ := ih (k - 308) (by omega) (x := z) (by linarith)
        exact ⟨w, by rw [hy]; change (x.div? y).bind _ = _; rw [hz]; exact hw⟩

/-- A significand of 64 bits and a power of ten yield a number, four neighbours before the end of
the format at the latest. -/
theorem exists_fraction? (negative : Bool) {m : Nat} (hm : m < pow2 64) {e : Int}
    (h : (m : ℚ) * 10 ^ e ≤ double.size (double.finite - 4)) :
    ∃ y, fraction? negative m e = some y := by
  have hl := pow_le_lastStep
  rw [Binary64.size_of_end (by norm_num)] at h
  have hx : (m : ℚ) / (1 : Nat) = m := by rw [Nat.cast_one, div_one]
  have hm64 : max (m : ℚ) 1 ≤ 2 ^ 64 := by
    refine max_le ?_ (by norm_num)
    rw [← cast_pow2]
    exact_mod_cast hm.le
  obtain ⟨x, hn, he⟩ := Binary64.exists_ofRatio? Nat.one_pos
    (hx.trans_le (le_trans (le_max_left _ _) hm64)) (by norm_num) (by linarith) false
  rw [hx] at he
  have hsize : double.size x.place ≤ max (m : ℚ) 1 * (1 + 1 / 2 ^ 53) := by
    have := (abs_le.1 he).2
    have := le_max_left (m : ℚ) 1
    linarith
  simp only [fraction?, Binary64.ofNat?, hn, Option.bind_eq_bind, Option.bind_some]
  split
  · next h0 =>
    obtain ⟨k, rfl⟩ := Int.eq_ofNat_of_zero_le h0
    rw [zpow_natCast] at h
    split
    · next hk =>
      have hk : k ≤ 308 := by omega
      obtain ⟨y, hy, hey⟩ := exists_tenPower? hk
      have hsize' : double.size y.place ≤ 10 ^ k * (1 + 1 / 2 ^ 53) := by
        have := (abs_le.1 hey).2
        linarith
      have hmax : max (m : ℚ) 1 * 10 ^ k ≤ (2 ^ 53 - (4 : Nat)) * lastStep := by
        rcases le_total (m : ℚ) 1 with hm1 | hm1
        · rw [max_eq_right hm1, one_mul]
          have := ten_pow_le hk
          push_cast
          linarith
        · rwa [max_eq_left hm1]
      have hnonneg : 0 ≤ double.size y.place := by
        have := (abs_le.1 hey).1
        have : (0 : ℚ) ≤ 10 ^ k := by positivity
        linarith
      obtain ⟨z, hz⟩ := x.exists_mul? y
        (b := (2 ^ 53 - 4) * lastStep * (1 + 1 / 2 ^ 53) ^ 2)
        (calc double.size x.place * double.size y.place
            ≤ max (m : ℚ) 1 * (1 + 1 / 2 ^ 53) * (10 ^ k * (1 + 1 / 2 ^ 53)) :=
              mul_le_mul hsize hsize' hnonneg (by positivity)
          _ = max (m : ℚ) 1 * 10 ^ k * (1 + 1 / 2 ^ 53) ^ 2 := by ring
          _ ≤ (2 ^ 53 - 4) * lastStep * (1 + 1 / 2 ^ 53) ^ 2 :=
              mul_le_mul_of_nonneg_right (by exact_mod_cast hmax) (by positivity))
        (by linarith) (by linarith)
      refine ⟨{ z with negative }, ?_⟩
      rw [Int.toNat_natCast, hy, Option.bind_some, hz, Option.bind_some]
    · next hk =>
      split
      · exact ⟨_, rfl⟩
      · next hz =>
        -- a significand from one on and such a power pass the end of the format
        exfalso
        have h1 : (1 : ℚ) ≤ m := by exact_mod_cast Nat.pos_of_ne_zero hz
        have := le_ten_pow (k := k) (by omega)
        have := le_mul_of_one_le_left (show (0 : ℚ) ≤ 10 ^ k by positivity) h1
        push_cast at h
        linarith
  · obtain ⟨y, hy⟩ := exists_shrink (-e).toNat (x := x) (by linarith)
    exact ⟨{ y with negative }, by rw [hy, Option.bind_some]⟩

/-! ### Digits -/

theorem extend_lt {n : Nat} (hn : n < pow2 64) (cs : List Char) : (extend n cs).1 < pow2 64 := by
  induction cs generalizing n with
  | nil => exact hn
  | cons c cs ih =>
    simp only [extend]
    split
    · next hm => exact ih hm
    · exact hn

theorem extend_left_le (n : Nat) (cs : List Char) : (extend n cs).2 ≤ cs.length := by
  induction cs generalizing n with
  | nil => exact Nat.le_refl _
  | cons c cs ih =>
    simp only [extend]
    split
    · exact Nat.le_succ_of_le (ih _)
    · exact Nat.le_refl _

/-- Where all digits are left the number stays. -/
theorem extend_of_left {n : Nat} (cs : List Char) (h : (extend n cs).2 = cs.length) :
    (extend n cs).1 = n := by
  cases cs with
  | nil => rfl
  | cons c cs =>
    simp only [extend] at h ⊢
    split at h
    · exact absurd h (Nat.ne_of_lt (Nat.lt_succ_of_le (extend_left_le _ cs)))
    · next hm => rw [if_neg hm]

theorem pow_mul_le_ofDigitChars (cs : List Char) (n : Nat) :
    10 ^ cs.length * n ≤ Nat.ofDigitChars 10 cs n := by
  rw [Nat.ofDigitChars_eq_ofDigitChars_zero]
  exact Nat.le_add_right _ _

theorem extend_mul_pow_le (n : Nat) (cs : List Char) :
    (extend n cs).1 * 10 ^ (extend n cs).2 ≤ Nat.ofDigitChars 10 cs n := by
  induction cs generalizing n with
  | nil => exact (Nat.mul_one n).le
  | cons c cs ih =>
    simp only [extend]
    split
    · rw [Nat.ofDigitChars_cons, Nat.mul_comm 10 n]
      exact ih _
    · rw [Nat.mul_comm]
      exact pow_mul_le_ofDigitChars (c :: cs) n

/-- If digits are left, then the first of them would have led past 64 bits. -/
theorem pow_le_of_extend {n : Nat} (cs : List Char) (h : (extend n cs).2 ≠ 0) :
    pow2 64 * 10 ^ ((extend n cs).2 - 1) ≤ Nat.ofDigitChars 10 cs n := by
  induction cs generalizing n with
  | nil => exact absurd rfl h
  | cons c cs ih =>
    simp only [extend] at h ⊢
    split at h
    · next hm =>
      rw [if_pos hm, Nat.ofDigitChars_cons, Nat.mul_comm 10 n]
      exact ih h
    · next hm =>
      rw [if_neg hm, Nat.ofDigitChars_cons, Nat.mul_comm 10 n, Nat.add_sub_cancel, Nat.mul_comm]
      exact (Nat.mul_le_mul_left _ (Nat.not_lt.1 hm)).trans (pow_mul_le_ofDigitChars cs _)

/-- What is kept of the digits before and behind a point, with zeros for those that are left, is no
more than what all the digits spell. -/
theorem extend_extend_le {whole fraction : List Char} {n left m lost : Nat}
    (hw : extend 0 whole = (n, left)) (hf : extend n fraction = (m, lost)) :
    m * 10 ^ (left + lost) ≤ Nat.ofDigitChars 10 (whole ++ fraction) 0 := by
  have hwhole := extend_mul_pow_le 0 whole
  have hfraction := extend_mul_pow_le n fraction
  have hmono := pow_mul_le_ofDigitChars fraction (Nat.ofDigitChars 10 whole 0)
  rw [hw] at hwhole
  rw [hf] at hfraction
  rw [Nat.ofDigitChars_append]
  rcases Nat.eq_zero_or_pos left with rfl | hleft
  · rw [Nat.pow_zero, Nat.mul_one] at hwhole
    rw [Nat.zero_add]
    rw [Nat.ofDigitChars_eq_ofDigitChars_zero] at hfraction ⊢
    exact hfraction.trans (Nat.add_le_add_right (Nat.mul_le_mul_left _ hwhole) _)
  · refine le_trans ?_ hmono
    have hlost := extend_left_le n fraction
    rw [hf] at hlost
    rcases Nat.lt_or_eq_of_le hlost with hlt | heq
    · -- the whole digits that were left outweigh what the fraction adds
      have hm := extend_lt (extend_lt (show 0 < pow2 64 by decide) whole) fraction
      have hpast := pow_le_of_extend (n := 0) whole
      rw [hw] at hm hpast
      rw [hf] at hm
      calc m * 10 ^ (left + lost)
          ≤ pow2 64 * 10 ^ (left + lost) := Nat.mul_le_mul_right _ hm.le
        _ = 10 ^ (lost + 1) * (pow2 64 * 10 ^ (left - 1)) := by
            rw [show left + lost = (lost + 1) + (left - 1) by omega, Nat.pow_add]
            ring
        _ ≤ 10 ^ fraction.length * Nat.ofDigitChars 10 whole 0 :=
            Nat.mul_le_mul (Nat.pow_le_pow_right (by decide) hlt) (hpast (Nat.ne_of_gt hleft))
    · have hm := extend_of_left (n := n) fraction
      rw [hf] at hm
      obtain rfl := hm heq
      obtain rfl : lost = fraction.length := heq
      rw [Nat.pow_add, ← Nat.mul_assoc, Nat.mul_comm]
      exact Nat.mul_le_mul_left _ hwhole

/-! ### Numbers -/

/-- The parts of a number that lies no closer to the end of the format yield a number. -/
theorem exists_numberOf (negative : Bool) {whole : List Char} {fraction : Option (List Char)}
    {e : Option Int}
    (h : (Nat.ofDigitChars 10 (whole ++ fraction.getD []) 0 : ℚ) *
      10 ^ (e.getD 0 - ((fraction.getD []).length : Int)) ≤ double.size (double.finite - 4)) :
    ∃ x, numberOf negative whole fraction e = some x := by
  rcases hw : extend 0 whole with ⟨n, left⟩
  rcases hf : extend n (fraction.getD []) with ⟨m, lost⟩
  have hm := extend_lt (extend_lt (show 0 < pow2 64 by decide) whole) (fraction.getD [])
  rw [hw, hf] at hm
  have hlost := extend_left_le n (fraction.getD [])
  rw [hf] at hlost
  have hval : (m : ℚ) * 10 ^ (e.getD 0 + left - ((fraction.getD []).length - lost : Nat)) ≤
      double.size (double.finite - 4) := by
    have hle : (m : ℚ) * 10 ^ (left + lost) ≤
        Nat.ofDigitChars 10 (whole ++ fraction.getD []) 0 := by
      exact_mod_cast extend_extend_le hw hf
    refine le_trans ?_ h
    have he : e.getD 0 + left - (((fraction.getD []).length - lost : Nat) : Int) =
        (left + lost : Nat) + (e.getD 0 - (fraction.getD []).length) := by
      rw [Nat.cast_sub hlost]
      push_cast
      ring
    rw [he, zpow_add₀ (by norm_num), zpow_natCast, ← mul_assoc]
    exact mul_le_mul_of_nonneg_right hle (by positivity)
  obtain ⟨y, hy⟩ := exists_fraction? negative hm hval
  simp only [numberOf, hw, hf]
  split
  · cases hf
    have hy : fraction? negative n 0 = some y := hy
    rw [hy]
    split <;> exact ⟨_, rfl⟩
  · exact ⟨.float y, by rw [hy]; rfl⟩

namespace Number

/-- The last numbers of the format are read back as some number, too. -/
theorem isSome_reread_of_last : ∀ t < 4, ∀ negative,
    ∀ h : double.finite - 1 - t < double.finite,
      (float ⟨negative, ⟨double.finite - 1 - t, h⟩⟩).reread.isSome = true := by
  decide +kernel

/-- A number is read back as some number. -/
theorem exists_reread (x : Number) : ∃ y, x.reread = some y := by
  obtain ⟨n, hn⟩ := Numeral.exists_writes x
  have hr := hn.legal.readNumber .nil
  rw [List.append_nil, hn.chars] at hr
  cases hn with
  | integer n => exact ⟨_, reread_integer n⟩
  | @float n x _ _ hs =>
    rcases Nat.lt_or_ge x.place.val (double.finite - 4) with hlt | hge
    · have hv : n.magnitude ≤ double.size (double.finite - 4) := by
        have hx := x.rounds_shortest.le
        have h1 := double.strictMono_size.monotone (Nat.le_succ x.place.val)
        have h2 := double.strictMono_size.monotone (Nat.succ_le_of_lt hlt)
        rw [hs.magnitude]
        change x.shortest.value ≤ _
        linarith
      obtain ⟨y, hy⟩ := exists_numberOf n.negative hv
      exact ⟨y, by rw [reread, hr, hy]⟩
    · obtain ⟨negative, place, hp⟩ := x
      change place < double.finite at hp
      obtain ⟨t, ht, rfl⟩ : ∃ t < 4, place = double.finite - 1 - t :=
        ⟨double.finite - 1 - place, by dsimp only at hge; omega, by omega⟩
      exact Option.isSome_iff_exists.1 (isSome_reread_of_last t ht negative hp)

end Number

/-! ### Values -/

mutual

/-- A draft of a value is taken for some value wherever it may be nested so deep. -/
theorem Drafts.exists_value : ∀ {v : Json} {d : Draft}, Drafts v d → ∀ {depth : Nat},
    v.depth ≤ depth → ∃ w, d.value depth = .ok w
  | _, _, .null, _, _ => ⟨_, rfl⟩
  | _, _, .bool b, _, _ => ⟨_, rfl⟩
  | _, _, .number n, _, _ => by
    obtain ⟨m, hm⟩ := n.exists_reread
    exact ⟨.number m, by rw [hm]; rfl⟩
  | _, _, .string s, _, _ => ⟨.string s, by simp [Draft.value]⟩
  | _, _, .array h, depth, hn => by
    obtain ⟨depth, rfl⟩ := Nat.exists_eq_add_one.2 (Nat.lt_of_lt_of_le (Nat.succ_pos _) hn)
    obtain ⟨ws, hws⟩ := h.exists_itemValues (Nat.le_of_succ_le_succ hn)
    exact ⟨.array ws, by rw [Draft.value, hws]; rfl⟩
  | _, _, .object h, depth, hn => by
    obtain ⟨depth, rfl⟩ := Nat.exists_eq_add_one.2 (Nat.lt_of_lt_of_le (Nat.succ_pos _) hn)
    obtain ⟨es, hes⟩ := h.exists_entryValues (Nat.le_of_succ_le_succ hn)
    exact ⟨.ofEntries es, by rw [Draft.value, hes]; rfl⟩

theorem ItemDrafts.exists_itemValues : ∀ {vs : List Json} {ds : List Draft}, ItemDrafts vs ds →
    ∀ {depth : Nat}, itemsDepth vs ≤ depth → ∃ ws, Draft.itemValues depth ds = .ok ws
  | _, _, .nil, _, _ => ⟨[], rfl⟩
  | _, _, .cons h hs, _, hn => by
    obtain ⟨hv, hvs⟩ := Nat.max_le.1 hn
    obtain ⟨w, hw⟩ := h.exists_value hv
    obtain ⟨ws, hws⟩ := hs.exists_itemValues hvs
    exact ⟨w :: ws, by rw [Draft.itemValues, hw, hws]; rfl⟩

theorem EntryDrafts.exists_entryValues :
    ∀ {es : List (String × Json)} {ks : List (Key × Draft)},
    EntryDrafts es ks → ∀ {depth : Nat}, entriesDepth es ≤ depth →
      ∃ ws, Draft.entryValues depth ks = .ok ws
  | _, _, .nil, _, _ => ⟨[], rfl⟩
  | _, _, @EntryDrafts.cons key _ _ _ _ _ h hs, _, hn => by
    obtain ⟨hv, hvs⟩ := Nat.max_le.1 hn
    obtain ⟨w, hw⟩ := h.exists_value hv
    obtain ⟨ws, hws⟩ := hs.exists_entryValues hvs
    exact ⟨(key, w) :: ws, by rw [Draft.entryValues, hw, hws]; rfl⟩

end

/-- The text of a value is read, fractions and all. -/
theorem exists_parse_chars {v : Json} (hn : v.depth ≤ depthLimit) :
    ∃ w, parse v.chars = .ok w := by
  obtain ⟨d, hr, hd⟩ := v.exists_readText
  obtain ⟨w, hw⟩ := hd.exists_value hn
  exact ⟨w, by rw [parse, hr]; simp only [bind, Except.bind, hw]; rfl⟩

end RemoteCall.Json
