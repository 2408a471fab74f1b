import RemoteCall.Proofs.Numeric.Nearest
import RemoteCall.Proofs.Text.Pieces

/-!
Decimal fractions: which texts spell one, and which number of 64 bits stands for it. Both are said
without the reader. Main statement: the reader accepts these texts and no others, and yields the
nearest number, unless that lies past the largest one.
-/

namespace RemoteCall.Numeric

/-! ### Texts -/

/-- A power of ten behind digits: none at all, or a letter and a whole number. -/
inductive SpellsExponent : List Char → Int → Prop
  | none : SpellsExponent [] 0
  | small {cs : List Char} {e : Int} : Spells cs e → SpellsExponent ('e' :: cs) e
  | large {cs : List Char} {e : Int} : Spells cs e → SpellsExponent ('E' :: cs) e

/-- Digits with at most one point in front of them, among them or behind them, then a power of ten;
and the number that all of this spells. -/
inductive SpellsUnsigned : List Char → ℚ → Prop
  | whole {ds es : List Char} {m : Nat} {e : Int} :
    SpellsNat ds m → SpellsExponent es e → SpellsUnsigned (ds ++ es) (m * 10 ^ e)
  | pointed {ds fs es : List Char} {m : Nat} {e : Int} :
    SpellsNat (ds ++ fs) m → SpellsExponent es e →
    SpellsUnsigned (ds ++ '.' :: (fs ++ es)) (m * 10 ^ (e - fs.length))

/-- A decimal fraction behind an optional sign: whether it is negative, and its magnitude. -/
inductive SpellsFraction : List Char → Bool → ℚ → Prop
  | plain {cs : List Char} {q : ℚ} : SpellsUnsigned cs q → SpellsFraction cs false q
  | plus {cs : List Char} {q : ℚ} : SpellsUnsigned cs q → SpellsFraction ('+' :: cs) false q
  | minus {cs : List Char} {q : ℚ} : SpellsUnsigned cs q → SpellsFraction ('-' :: cs) true q

/-- A power of ten begins with a letter. -/
theorem SpellsExponent.head? {cs : List Char} {e : Int} (h : SpellsExponent cs e) :
    ∀ c ∈ cs.head?, isDigit c = false ∧ c ≠ '.' := by
  intro c hc
  cases h with
  | none => cases hc
  | small _ =>
    cases hc
    decide
  | large _ =>
    cases hc
    decide

theorem SpellsExponent.not_blank {cs : List Char} {e : Int} (h : SpellsExponent cs e) :
    ∀ c ∈ cs, Text.isBlank c = false := by
  cases h with
  | none => exact List.forall_mem_nil _
  | small h => exact List.forall_mem_cons.2 ⟨by decide, h.not_blank⟩
  | large h => exact List.forall_mem_cons.2 ⟨by decide, h.not_blank⟩

/-- A magnitude begins with a digit or the point. -/
theorem SpellsUnsigned.head? {cs : List Char} {q : ℚ} (h : SpellsUnsigned cs q) :
    ∀ c ∈ cs.head?, isDigit c = true ∨ c = '.' := by
  intro c hc
  cases h with
  | @whole ds _ _ _ hm _ =>
    cases ds with
    | nil => exact absurd rfl hm.nonempty
    | cons d ds =>
      cases hc
      exact .inl (hm.digits _ List.mem_cons_self)
  | @pointed ds _ _ _ _ hm _ =>
    cases ds with
    | nil =>
      cases hc
      exact .inr rfl
    | cons d ds =>
      cases hc
      exact .inl (hm.digits _ List.mem_cons_self)

theorem SpellsUnsigned.not_blank {cs : List Char} {q : ℚ} (h : SpellsUnsigned cs q) :
    ∀ c ∈ cs, Text.isBlank c = false := by
  cases h with
  | whole hm he => exact List.forall_mem_append.2 ⟨hm.not_blank, he.not_blank⟩
  | pointed hm he =>
    obtain ⟨hd, hf⟩ := List.forall_mem_append.1 hm.not_blank
    exact List.forall_mem_append.2 ⟨hd, List.forall_mem_cons.2
      ⟨by decide, List.forall_mem_append.2 ⟨hf, he.not_blank⟩⟩⟩

theorem SpellsFraction.not_blank {cs : List Char} {negative : Bool} {q : ℚ}
    (h : SpellsFraction cs negative q) : ∀ c ∈ cs, Text.isBlank c = false := by
  cases h with
  | plain h => exact h.not_blank
  | plus h => exact List.forall_mem_cons.2 ⟨by decide, h.not_blank⟩
  | minus h => exact List.forall_mem_cons.2 ⟨by decide, h.not_blank⟩

namespace Binary64

open Format (double)
open Text (dropWhile_append_eq_right takeWhile_append_eq_left)

variable {cs ds fs es : List Char} {negative : Bool} {num den m : Nat} {e : Int} {q : ℚ}
  {x : Binary64}

/-! ### Powers of ten -/

theorem ofPlace?_eq_some_iff {k : Nat} :
    ofPlace? negative k = some x ↔ x.negative = negative ∧ k = x.place := by
  rw [ofPlace?]
  constructor
  · intro h
    split at h
    · cases h
      exact ⟨rfl, rfl⟩
    · cases h
  · rintro ⟨rfl, rfl⟩
    exact dif_pos x.place.isLt

theorem ofRatio?_eq_some_iff (hd : 0 < den) :
    ofRatio? negative num den = some x ↔
      x.negative = negative ∧ double.Nearest (num / den) x.place := by
  rw [ofRatio?, ofPlace?_eq_some_iff, Format.nearest_eq_iff (by decide) hd]

/-- What lies so far below the least magnitude is nearest to zero. -/
theorem nearest_zero (hq : q ≤ 10 ^ (-401 : Int)) : double.Nearest q 0 := by
  have hn : ¬ 0 % 2 = 1 := by decide
  have hs : double.size 1 = 2 ^ (-1074 : Int) := by
    rw [Format.size, double.magnitude_of_lt (by decide), Nat.cast_one, one_mul]
    rfl
  have hp : pow2 1075 ≤ pow10 401 := by decide +kernel
  have hle : (10 : ℚ) ^ (-401 : Int) ≤ 2 ^ (-1075 : Int) := by
    rw [zpow_neg, zpow_neg, inv_le_inv₀ (by positivity) (by positivity)]
    have hc : ((pow2 1075 : Nat) : ℚ) ≤ (pow10 401 : Nat) := Nat.cast_le.2 hp
    rw [cast_pow2, cast_pow10] at hc
    exact_mod_cast hc
  have hhalf : (2 : ℚ) ^ (-1074 : Int) = 2 ^ (-1075 : Int) * 2 := by
    rw [← zpow_add_one₀ two_ne_zero]
    rfl
  refine Format.Rounds.nearest ⟨?_, fun ho => absurd ho hn, fun h => absurd rfl h,
    fun ho => absurd ho hn⟩
  rw [double.size_zero, hs, hhalf]
  linarith

/-- What lies past the largest magnitude by a whole step is nearest to none of the format. -/
theorem not_nearest (hq : double.size double.finite ≤ q) (x : Binary64) :
    ¬ double.Nearest q x.place := by
  intro h
  have hm := h.rounds.le
  have hup := double.strictMono_size (Nat.lt_succ_self x.place)
  have hend : double.size (x.place + 1) ≤ double.size double.finite :=
    double.strictMono_size.monotone x.place.isLt
  linarith

theorem cast_mul_zpow_lt (m : Nat) (e : Int) :
    (m : ℚ) * 10 ^ e < 10 ^ (e + (decimalDigits m).length) := by
  rw [zpow_add₀ (by norm_num), zpow_natCast, mul_comm]
  refine mul_lt_mul_of_pos_left ?_ (by positivity)
  exact_mod_cast lt_pow_length_decimalDigits m

theorem zpow_le_cast_mul (hm : 0 < m) (e : Int) :
    (10 : ℚ) ^ (e + (decimalDigits m).length - 1) ≤ m * 10 ^ e := by
  have hl : 0 < (decimalDigits m).length := List.length_pos_of_ne_nil Nat.toDigits_ne_nil
  have he : e + ((decimalDigits m).length : Int) - 1 =
      e + (((decimalDigits m).length - 1 : Nat) : Int) := by omega
  rw [he, zpow_add₀ (by norm_num), zpow_natCast, mul_comm (m : ℚ)]
  refine mul_le_mul_of_nonneg_left ?_ (by positivity)
  exact_mod_cast pow_length_decimalDigits_le hm

theorem nearest_zero_of_reach (h : m = 0 ∨ e + (decimalDigits m).length < -400) :
    double.Nearest (m * 10 ^ e) 0 := by
  apply nearest_zero
  rcases h with rfl | h
  · rw [Nat.cast_zero, zero_mul]
    positivity
  · exact (cast_mul_zpow_lt m e).le.trans (zpow_le_zpow_right₀ (by norm_num) (by omega))

theorem size_end_le_of_reach (hm : 0 < m) (h : 400 < e + (decimalDigits m).length) :
    double.size double.finite ≤ m * 10 ^ e := by
  calc
    _ ≤ (10 : ℚ) ^ 400 := by
      rw [size_end]
      exact le_ten_pow (by decide)
    _ ≤ 10 ^ (e + (decimalDigits m).length - 1) := by
      rw [← zpow_natCast]
      exact zpow_le_zpow_right₀ (by norm_num) (by omega)
    _ ≤ _ := zpow_le_cast_mul hm e

theorem some_zero_eq_iff (h : double.Nearest q 0) :
    some { zero with negative } = some x ↔
      x.negative = negative ∧ double.Nearest q x.place := by
  constructor
  · intro hx
    cases hx
    exact ⟨rfl, h⟩
  · rintro ⟨rfl, hx⟩
    have hp : zero.place = x.place := Fin.ext (h.unique hx)
    exact congrArg (fun k => some (Binary64.mk x.negative k)) hp

/-- A significand and a power of ten yield the nearest number. -/
theorem ofDecimal?_eq_some_iff :
    ofDecimal? negative m e = some x ↔
      x.negative = negative ∧ double.Nearest (m * 10 ^ e) x.place := by
  rw [ofDecimal?]
  dsimp only
  split
  · next h => exact some_zero_eq_iff (nearest_zero_of_reach h)
  · next hz =>
    have hm : 0 < m := Nat.pos_of_ne_zero (not_or.1 hz).1
    split
    · next h =>
      refine iff_of_false (Option.some_ne_none x).symm fun hx => ?_
      exact not_nearest (size_end_le_of_reach hm h) x hx.2
    · split
      · next he =>
        obtain ⟨k, rfl⟩ := Int.eq_ofNat_of_zero_le he
        rw [ofRatio?_eq_some_iff Nat.one_pos]
        simp [cast_pow10]
      · next he =>
        obtain ⟨k, hk⟩ := Int.eq_ofNat_of_zero_le (show 0 ≤ -e by omega)
        obtain rfl : e = -(k : Int) := by omega
        have hp : 0 < pow10 (- -(k : Int)).toNat := Nat.pow_pos (by decide)
        rw [ofRatio?_eq_some_iff hp]
        simp [cast_pow10, div_eq_mul_inv]

/-! ### Reading -/

theorem exponent?_eq_some_iff : exponent? cs = some e ↔ SpellsExponent cs e := by
  constructor
  · intro h
    cases cs with
    | nil =>
      cases h
      exact .none
    | cons c cs =>
      rw [exponent?] at h
      split at h
      · next hc =>
        rw [intOfDigits?_eq_some_iff] at h
        rcases hc with rfl | rfl
        · exact .small h
        · exact .large h
      · cases h
  · intro h
    cases h with
    | none => rfl
    | small h => rw [exponent?, if_pos (.inl rfl), intOfDigits?_eq_some_iff.2 h]
    | large h => rw [exponent?, if_pos (.inr rfl), intOfDigits?_eq_some_iff.2 h]

theorem ofUnsigned?_whole (hd : ∀ d ∈ ds, isDigit d = true)
    (he : ∀ c ∈ es.head?, isDigit c = false ∧ c ≠ '.') :
    ofUnsigned? negative (ds ++ es) = (natOfDigits? 10 ds).bind fun m =>
      (exponent? es).bind fun e => ofDecimal? negative m e := by
  have ht := takeWhile_append_eq_left hd fun c hc => (he c hc).1
  have hr := dropWhile_append_eq_right hd fun c hc => (he c hc).1
  rw [ofUnsigned?, ht, hr]
  split
  · next fraction rest hs =>
    split at hs
    · exact absurd rfl (he '.' rfl).2
    · cases hs
      simp

theorem ofUnsigned?_pointed (hd : ∀ d ∈ ds, isDigit d = true)
    (hf : ∀ d ∈ fs, isDigit d = true)
    (he : ∀ c ∈ es.head?, isDigit c = false ∧ c ≠ '.') :
    ofUnsigned? negative (ds ++ '.' :: (fs ++ es)) = (natOfDigits? 10 (ds ++ fs)).bind fun m =>
      (exponent? es).bind fun e => ofDecimal? negative m (e - fs.length) := by
  have hp : ∀ c ∈ ('.' :: (fs ++ es)).head?, isDigit c = false := by
    rintro c ⟨⟩
    decide
  have ht := takeWhile_append_eq_left hd hp
  have hr := dropWhile_append_eq_right hd hp
  have ht' := takeWhile_append_eq_left hf fun c hc => (he c hc).1
  have hr' := dropWhile_append_eq_right hf fun c hc => (he c hc).1
  rw [ofUnsigned?, ht, hr]
  simp only [ht', hr']
  rfl

theorem ofUnsigned?_of_spells (h : SpellsUnsigned cs q) :
    ofUnsigned? negative cs = some x ↔ x.negative = negative ∧ double.Nearest q x.place := by
  cases h with
  | whole hm he =>
    rw [ofUnsigned?_whole hm.digits he.head?, natOfDigits?_eq_some_iff.2 hm,
      exponent?_eq_some_iff.2 he]
    exact ofDecimal?_eq_some_iff
  | pointed hm he =>
    obtain ⟨hd, hf⟩ := List.forall_mem_append.1 hm.digits
    rw [ofUnsigned?_pointed hd hf he.head?, natOfDigits?_eq_some_iff.2 hm,
      exponent?_eq_some_iff.2 he]
    exact ofDecimal?_eq_some_iff

theorem exists_spellsUnsigned (h : ofUnsigned? negative cs = some x) :
    ∃ q, SpellsUnsigned cs q := by
  unfold ofUnsigned? at h
  have hcs := List.takeWhile_append_dropWhile (p := isDigit) (l := cs)
  dsimp only at h
  split at h
  · next fraction rest hr =>
    obtain ⟨m, hm, h⟩ := Option.bind_eq_some_iff.1 h
    obtain ⟨e, he, -⟩ := Option.bind_eq_some_iff.1 h
    have hp := SpellsUnsigned.pointed (natOfDigits?_eq_some_iff.1 hm) (exponent?_eq_some_iff.1 he)
    rw [List.takeWhile_append_dropWhile, ← hr, hcs] at hp
    exact ⟨_, hp⟩
  · obtain ⟨m, hm, h⟩ := Option.bind_eq_some_iff.1 h
    obtain ⟨e, he, -⟩ := Option.bind_eq_some_iff.1 h
    rw [List.append_nil] at hm
    have hw := SpellsUnsigned.whole (natOfDigits?_eq_some_iff.1 hm) (exponent?_eq_some_iff.1 he)
    rw [hcs] at hw
    exact ⟨_, hw⟩

theorem ofUnsigned?_eq_some_iff : ofUnsigned? negative cs = some x ↔
    x.negative = negative ∧ ∃ q, SpellsUnsigned cs q ∧ double.Nearest q x.place := by
  constructor
  · intro h
    obtain ⟨q, hq⟩ := exists_spellsUnsigned h
    obtain ⟨hx, hn⟩ := (ofUnsigned?_of_spells hq).1 h
    exact ⟨hx, q, hq, hn⟩
  · rintro ⟨hx, q, hq, hn⟩
    exact (ofUnsigned?_of_spells hq).2 ⟨hx, hn⟩

/-- The reader of fractions accepts the texts that spell one, and yields the nearest number. -/
theorem ofText?_eq_some_iff :
    ofText? cs = some x ↔ ∃ q, SpellsFraction cs x.negative q ∧ double.Nearest q x.place := by
  constructor
  · intro h
    unfold ofText? at h
    split at h
    all_goals
      obtain ⟨hx, q, hq, hn⟩ := ofUnsigned?_eq_some_iff.1 h
      rw [hx]
    · exact ⟨q, .minus hq, hn⟩
    · exact ⟨q, .plus hq, hn⟩
    · exact ⟨q, .plain hq, hn⟩
  · rintro ⟨q, hs, hn⟩
    generalize hx : x.negative = negative at hs
    cases hs with
    | minus h => exact ofUnsigned?_eq_some_iff.2 ⟨hx, q, h, hn⟩
    | plus h => exact ofUnsigned?_eq_some_iff.2 ⟨hx, q, h, hn⟩
    | plain h =>
      unfold ofText?
      split
      · exact absurd (h.head? _ rfl) (by decide)
      · exact absurd (h.head? _ rfl) (by decide)
      · exact ofUnsigned?_eq_some_iff.2 ⟨hx, q, h, hn⟩

end Binary64

end RemoteCall.Numeric
