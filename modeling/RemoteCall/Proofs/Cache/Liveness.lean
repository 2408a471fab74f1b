import RemoteCall.Proofs.Cache.Eviction

/-!
The time of expiry on words of 64 bits. It takes a product, a change of sign and a sum, each of
which stops at the end of its range instead of starting over. Main statement: the time that comes of
the three compares with every time but the latest as the sum of all seconds would.
-/

namespace RemoteCall

/-! ### Words -/

namespace Word

/-- The product, or the largest word where the product does not fit. -/
def mulCapped (a b : UInt64) : UInt64 :=
  if b ≠ 0 ∧ 18446744073709551615 / b < a then 18446744073709551615 else a * b

/-- The same number as a word with a sign, or the largest of these. -/
def toSigned (a : UInt64) : Int64 := if a ≤ 9223372036854775807 then a.toInt64 else Int64.maxValue

/-- The sum, or the end of the range past which it would be. -/
def addCapped (a b : Int64) : Int64 :=
  if 0 ≤ b then if a + b < a then Int64.maxValue else a + b
  else if a < a + b then Int64.minValue else a + b

variable {a b : UInt64} {x y : Int64}

theorem div_lt_iff (hb : b ≠ 0) :
    18446744073709551615 / b < a ↔ 18446744073709551615 < a.toNat * b.toNat := by
  have hpos : 0 < b.toNat := Nat.pos_of_ne_zero fun h => hb (UInt64.toNat_inj.1 h)
  rw [UInt64.lt_iff_toNat_lt, UInt64.toNat_div, Nat.div_lt_iff_lt_mul hpos]
  rfl

theorem toNat_mulCapped (a b : UInt64) :
    (mulCapped a b).toNat = min (a.toNat * b.toNat) 18446744073709551615 := by
  by_cases hb : b = 0
  · subst hb
    simp [mulCapped]
  · simp only [mulCapped, ne_eq, hb, not_false_eq_true, true_and, div_lt_iff hb]
    split
    · next h => exact (Nat.min_eq_right (Nat.le_of_lt h)).symm
    · next h =>
      have hle := Nat.le_of_not_lt h
      rw [UInt64.toNat_mul, Nat.mod_eq_of_lt (Nat.lt_succ_of_le hle), Nat.min_eq_left hle]

theorem toInt_toSigned (a : UInt64) : (toSigned a).toInt = min a.toNat 9223372036854775807 := by
  have hi : a.toInt64.toInt = (a.toNat : Int).bmod (2 ^ 64) := BitVec.toInt_eq_toNat_bmod _
  rw [toSigned]
  split
  · next h =>
    have hle : a.toNat ≤ 9223372036854775807 := UInt64.le_iff_toNat_le.1 h
    rw [hi, Int.bmod_eq_of_le (by omega) (by omega)]
    omega
  · next h =>
    have hlt : ¬ a.toNat ≤ 9223372036854775807 := fun hn => h (UInt64.le_iff_toNat_le.2 hn)
    rw [Int64.toInt_maxValue]
    omega

theorem toInt_bounds (x : Int64) :
    -9223372036854775808 ≤ x.toInt ∧ x.toInt ≤ 9223372036854775807 :=
  ⟨Int64.le_toInt x, Int.le_of_lt_add_one (Int64.toInt_lt x)⟩

/-- A sum past the end of its range starts over from the other end. -/
theorem toInt_add_cases (x y : Int64) :
    (x + y).toInt = x.toInt + y.toInt ∨
      9223372036854775807 < x.toInt + y.toInt ∧
        (x + y).toInt = x.toInt + y.toInt - 18446744073709551616 ∨
      x.toInt + y.toInt < -9223372036854775808 ∧
        (x + y).toInt = x.toInt + y.toInt + 18446744073709551616 := by
  have hx := toInt_bounds x
  have hy := toInt_bounds y
  rw [Int64.toInt_add, Int.bmod_def]
  split <;> omega

/-- Starting over shows, since the sum is then on the wrong side of what was added to. -/
theorem toInt_addCapped (x y : Int64) : (addCapped x y).toInt =
    max (-9223372036854775808) (min (x.toInt + y.toInt) 9223372036854775807) := by
  have hx := toInt_bounds x
  have hy := toInt_bounds y
  have hs := toInt_bounds (x + y)
  have hz : (0 : Int64) ≤ y ↔ 0 ≤ y.toInt := Int64.le_iff_toInt_le
  have hc := toInt_add_cases x y
  simp only [addCapped, apply_ite Int64.toInt, hz, Int64.lt_iff_toInt_lt, Int64.toInt_maxValue,
    Int64.toInt_minValue]
  split <;> split <;> omega

end Word

/-! ### Expiry -/

/-- The time as a word. -/
def Instant.word (t : Instant) : Int64 := Int64.ofInt t.val

theorem Instant.toInt_word (t : Instant) : t.word.toInt = t.val :=
  Int64.toInt_ofInt_of_le t.property.1 (Int.lt_add_one_of_le t.property.2)

namespace CacheEntry

/-- The time of expiry as it is computed on words. -/
def expiryWord (e : CacheEntry) (ttl : UInt64) : Int64 :=
  Word.addCapped e.epoch.word (Word.toSigned (Word.mulCapped ttl 1000))

variable {e : CacheEntry} {ttl ttl' : UInt64} {now now' : Instant}

theorem toInt_toSigned_mulCapped (ttl : UInt64) :
    (Word.toSigned (Word.mulCapped ttl 1000)).toInt =
      min (ttl.toNat * 1000 : Int) 9223372036854775807 := by
  have h : (1000 : UInt64).toNat = 1000 := rfl
  rw [Word.toInt_toSigned, Word.toNat_mulCapped, h]
  omega

/-- The words compute the time of expiry. -/
theorem toInt_expiryWord (e : CacheEntry) (ttl : UInt64) :
    (e.expiryWord ttl).toInt = (e.expiresAt ttl).val := by
  rw [expiryWord, Word.toInt_addCapped, Instant.toInt_word, toInt_toSigned_mulCapped]
  simp only [expiresAt, Instant.later, Instant.clamp]
  omega

theorem val_expiresAt (h : 0 ≤ e.epoch.val) (ttl : UInt64) : (e.expiresAt ttl).val =
    min (e.epoch.val + ttl.toNat * 1000) 9223372036854775807 := by
  simp only [expiresAt, Instant.later, Instant.clamp]
  omega

/-- More seconds put off the time of expiry. -/
theorem expiresAt_mono (e : CacheEntry) (h : ttl ≤ ttl') :
    (e.expiresAt ttl).val ≤ (e.expiresAt ttl').val := by
  have hn : ttl.toNat ≤ ttl'.toNat := UInt64.le_iff_toNat_le.1 h
  simp only [expiresAt, Instant.later, Instant.clamp]
  omega

/-- At every time but the latest, an entry that was stored at no negative time is live if that time
comes before the exact sum of the time of storing and the milliseconds of its seconds, however many
these are. No word on the way to the time of expiry starts over: each holds the exact number or the
end of its range. So more seconds or an earlier time keep a live entry alive; and what is live is
what a lookup finds. -/
theorem expiry_exact (h : 0 ≤ e.epoch.val) :
    (∀ (ttl : UInt64) (now : Instant), now.val < 9223372036854775807 →
      (now.val < (e.expiresAt ttl).val ↔ now.val < e.epoch.val + 1000 * ttl.toNat)) ∧
    (∀ ttl : UInt64,
      (Word.mulCapped ttl 1000).toNat = min (1000 * ttl.toNat) 18446744073709551615 ∧
      (Word.toSigned (Word.mulCapped ttl 1000)).toInt =
        min (1000 * ttl.toNat : Int) 9223372036854775807 ∧
      (e.expiryWord ttl).toInt = min (e.epoch.val + 1000 * ttl.toNat) 9223372036854775807 ∧
      (e.expiryWord ttl).toInt = (e.expiresAt ttl).val) ∧
    (∀ (ttl ttl' : UInt64) (now now' : Instant), ttl ≤ ttl' → now'.val ≤ now.val →
      now.val < (e.expiresAt ttl).val → now'.val < (e.expiresAt ttl').val) ∧
    ∀ (c : Cache) (key : String), c.entries.get? key = some e →
      ∀ (ttl : UInt64) (now : Instant),
      ((c.lookup key ttl now).1 = some (e.output, e.attachments) ↔
        now.val < (e.expiresAt ttl).val) := by
  refine ⟨fun ttl now hn => ?_, fun ttl => ⟨?_, ?_, ?_, ?_⟩,
    fun ttl ttl' now now' ht hn hl => ?_,
    fun c key hx ttl now => Cache.lookup_fst_iff hx ttl now⟩
  · rw [val_expiresAt h]
    omega
  · rw [Word.toNat_mulCapped, Nat.mul_comm]
    rfl
  · rw [toInt_toSigned_mulCapped, Int.mul_comm]
  · rw [toInt_expiryWord, val_expiresAt h, Int.mul_comm]
  · exact toInt_expiryWord e ttl
  · exact Int.lt_of_lt_of_le (Int.lt_of_le_of_lt hn hl) (expiresAt_mono e ht)

/-- An entry stored so late that a single second more is past the latest time. -/
def late : CacheEntry := ⟨.null, [], .clamp 9223372036854775000⟩

theorem expiry_exact_late :
    0 ≤ late.epoch.val ∧
      (Instant.clamp 9223372036854775806).val < (late.expiresAt 18446744073709551615).val ∧
      (Instant.clamp 9223372036854775806).val < (late.expiresAt 1).val ∧
      (late.expiryWord 18446744073709551615).toInt = (late.expiresAt 18446744073709551615).val ∧
      ¬ late.epoch.val < (late.expiresAt 0).val := by
  have h : 0 ≤ late.epoch.val := by decide
  obtain ⟨hx, hs, hm, -⟩ := expiry_exact h
  have h₁ : (Instant.clamp 9223372036854775806).val < (late.expiresAt 1).val :=
    (hx 1 _ (by decide)).2 (by decide)
  exact ⟨h, hm 1 _ _ _ (by decide) (Int.le_refl _) h₁, h₁, (hs _).2.2.2,
    mt (hx 0 _ (by decide)).1 (by decide)⟩

end CacheEntry

end RemoteCall
