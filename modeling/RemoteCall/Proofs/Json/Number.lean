import RemoteCall.Proofs.Json.Numeral
import RemoteCall.Proofs.Numeric.Shortest

/-!
The numerals that numbers are written as. Each is legal, has exactly the value of the number or that
of its shortest digits, and a fraction shows that it is no whole number. Main statement: the text of
a number tells the number.
-/

namespace RemoteCall.Json

open Numeric

/-! ### Whole numbers -/

theorem lead_decimalDigits (n : Nat) :
    (decimalDigits n).head? = some '0' → (decimalDigits n).length = 1 := by
  intro hz
  rcases Nat.eq_zero_or_pos n with rfl | hn
  · rfl
  · exact absurd hz (head?_decimalDigits hn)

/-- The numeral of a whole number. -/
def Numeral.ofInt (n : Int) : Numeral := ⟨n < 0, decimalDigits n.natAbs, none, none⟩

namespace Numeral

theorem chars_ofInt (n : Int) : (ofInt n).chars = decimal n := by
  rw [chars, unsigned, ofInt, decimal]
  simp only [decide_eq_true_eq, fractionChars, exponentChars, List.append_nil]

theorem legal_ofInt (n : Int) : (ofInt n).Legal where
  whole := digital_decimalDigits n.natAbs
  lead := lead_decimalDigits n.natAbs
  fraction := nofun
  exponent := nofun

theorem numberOf_ofInt (n : Integer) :
    numberOf (n.val < 0) (decimalDigits n.val.natAbs) none none = some (.integer n) := by
  have he : extend 0 (decimalDigits n.val.natAbs) = (n.val.natAbs, 0) := by
    apply extend_decimalDigits
    have hn := n.property
    change n.val.natAbs < 18446744073709551616
    omega
  have hz : ¬ (decide (n.val < 0) = true ∧ n.val.natAbs = 0) := by
    rw [decide_eq_true_eq]
    omega
  have hv :
      (if decide (n.val < 0) = true then -(n.val.natAbs : Int) else n.val.natAbs) = n.val := by
    simp only [decide_eq_true_eq]
    omega
  have hi : Integer.ofInt? n.val = some n := by
    rw [Integer.ofInt?, dif_pos n.property]
  simp only [numberOf, he]
  rw [if_neg hz, hv, hi]

end Numeral

theorem readNumber_integer (n : Integer) {rest : List Char} (h : Terminates rest) :
    readNumber (decimal n.val ++ rest) = .ok (some (.integer n), rest) := by
  rw [← Numeral.chars_ofInt, (Numeral.legal_ofInt n.val).readNumber h]
  exact congrArg (fun m => Except.ok (m, rest)) (Numeral.numberOf_ofInt n)

/-! ### Fractions -/

namespace Numeral

/-- The value without the sign. -/
def magnitude (n : Numeral) : ℚ :=
  Nat.ofDigitChars 10 (n.whole ++ n.fraction.getD []) 0 *
    10 ^ ((n.exponent.map power).getD 0 - ((n.fraction.getD []).length : Int))

/-- A numeral that says the decimal number `m * 10 ^ e`, and shows that it is no whole number. -/
structure Shows (n : Numeral) (m : Nat) (e : Int) : Prop where
  legal : n.Legal
  marked : n.fraction = none → n.exponent ≠ none
  magnitude : n.magnitude = m * 10 ^ e

theorem Shows.signed {n : Numeral} {m : Nat} {e : Int} (h : n.Shows m e) (negative : Bool) :
    Shows { n with negative } m e where
  legal := ⟨h.legal.whole, h.legal.lead, h.legal.fraction, h.legal.exponent⟩
  marked := h.marked
  magnitude := h.magnitude

theorem power_decimalDigits (e : Int) : power (e < 0, decimalDigits e.natAbs) = e := by
  have hn : natOfDigits? 10 (decimalDigits e.natAbs) = some e.natAbs :=
    natOfDigits?_toDigits (by decide) (by decide) _
  simp only [power, hn, Option.getD_some, decide_eq_true_eq]
  omega

theorem digital_zero : Digital ['0'] where
  nonempty := List.cons_ne_nil _ _
  digits := List.forall_mem_singleton.2 (by decide)

theorem digital_replicate (k : Nat) {ds : List Char} (h : Digital ds) :
    Digital (List.replicate k '0' ++ ds) where
  nonempty := List.append_ne_nil_of_right_ne_nil _ h.nonempty
  digits := by
    refine List.forall_mem_append.2 ⟨fun d hd => ?_, h.digits⟩
    rw [List.eq_of_mem_replicate hd]
    decide

section

variable {ds : List Char} {m : Nat} (hd : Digital ds) (hh : ds.head? ≠ some '0')
  (hv : Nat.ofDigitChars 10 ds 0 = m)
include hd hh hv

/-- All digits stand before the point, and zeros behind them. -/
theorem shows_large (k : Nat) :
    Shows ⟨false, ds ++ List.replicate k '0', some ['0'], none⟩ m k where
  legal := by
    obtain ⟨d, ds, rfl⟩ := List.exists_cons_of_ne_nil hd.nonempty
    refine ⟨⟨by simp, ?_⟩, fun hz => absurd hz hh, ?_, nofun⟩
    · refine List.forall_mem_append.2 ⟨hd.digits, fun d hd => ?_⟩
      rw [List.eq_of_mem_replicate hd]
      decide
    · intro es hes
      cases hes
      exact digital_zero
  marked := nofun
  magnitude := by
    have ht : Nat.ofDigitChars 10 ['0'] (10 ^ k * m) = 10 * (10 ^ k * m) := rfl
    simp only [magnitude, Option.getD_some, Option.map_none, Option.getD_none,
      Nat.ofDigitChars_append, hv, Nat.ofDigitChars_replicate_zero, ht, List.length_singleton]
    push_cast
    rw [zpow_natCast, zpow_neg_one]
    ring

/-- The point stands among the digits. -/
theorem shows_medium {k : Nat} (hk : 0 < k) (hl : k < ds.length) :
    Shows ⟨false, ds.take k, some (ds.drop k), none⟩ m (k - ds.length) where
  legal := by
    refine ⟨⟨?_, fun d h => hd.digits d (List.mem_of_mem_take h)⟩, fun hz => ?_, ?_, nofun⟩
    · exact fun h => (List.take_eq_nil_iff.1 h).elim (Nat.ne_of_gt hk) hd.nonempty
    · rw [List.head?_take, if_neg (Nat.ne_of_gt hk)] at hz
      exact absurd hz hh
    · intro es hes
      cases hes
      refine ⟨?_, fun d h => hd.digits d (List.mem_of_mem_drop h)⟩
      rw [ne_eq, List.drop_eq_nil_iff]
      omega
  marked := nofun
  magnitude := by
    simp only [magnitude, Option.getD_some, Option.map_none, Option.getD_none,
      List.take_append_drop, hv, List.length_drop]
    congr 2
    omega

omit hh

/-- The digits stand behind the point and some zeros. -/
theorem shows_small (k : Nat) :
    Shows ⟨false, ['0'], some (List.replicate k '0' ++ ds), none⟩ m (-(k + ds.length)) where
  legal := by
    refine ⟨digital_zero, fun _ => rfl, ?_, nofun⟩
    intro es hes
    cases hes
    exact digital_replicate k hd
  marked := nofun
  magnitude := by
    have ht : Nat.ofDigitChars 10 ['0'] 0 = 0 := rfl
    simp only [magnitude, Option.getD_some, Option.map_none, Option.getD_none,
      Nat.ofDigitChars_append, ht, Nat.ofDigitChars_replicate_zero, Nat.mul_zero, hv,
      List.length_append, List.length_replicate, zero_sub, Nat.cast_add]

end

/-- One digit stands before the point, and an exponent behind the others. -/
theorem shows_scientific {d : Char} {ds : List Char} {m : Nat} (hd : Digital (d :: ds))
    (hv : Nat.ofDigitChars 10 (d :: ds) 0 = m) (e : Int) :
    Shows ⟨false, [d], if ds = [] then none else some ds,
      some (e < 0, decimalDigits e.natAbs)⟩ m
      (e - ds.length) where
  legal := by
    obtain ⟨h, ht⟩ := List.forall_mem_cons.1 hd.digits
    refine ⟨⟨by simp, by simpa using h⟩, fun _ => rfl, ?_, ?_⟩
    · intro es hes
      simp only at hes
      split at hes
      · cases hes
      · next hn =>
        cases hes
        exact ⟨hn, ht⟩
    · intro p hp
      cases hp
      exact digital_decimalDigits _
  marked := nofun
  magnitude := by
    have hg : (if ds = [] then none else some ds).getD [] = ds := by
      split
      · next h => exact h.symm
      · rfl
    simp only [magnitude, hg, Option.map_some, power_decimalDigits, Option.getD_some, hv,
      List.cons_append, List.nil_append]

theorem exists_shows_layout {m : Nat} (hm : 0 < m) (e : Int) :
    ∃ n : Numeral, n.unsigned = layout (decimalDigits m) e ∧ n.Shows m e := by
  have hd := digital_decimalDigits m
  have hh := head?_decimalDigits hm
  have hv : Nat.ofDigitChars 10 (decimalDigits m) 0 = m :=
    Nat.ofDigitChars_toDigits (by decide) (by decide)
  generalize decimalDigits m = ds at hd hh hv
  have hl : 0 < ds.length := List.length_pos_of_ne_nil hd.nonempty
  simp only [layout]
  split
  · split
    · next he =>
      obtain ⟨k, rfl⟩ := Int.eq_ofNat_of_zero_le he
      refine ⟨_, ?_, shows_large hd hh hv k⟩
      simp [unsigned, fractionChars, exponentChars]
    · split
      · next he hlead =>
        obtain ⟨k, hk⟩ := Int.eq_ofNat_of_zero_le hlead
        obtain rfl : e = (k + 1 : Nat) - ds.length := by
          push_cast
          omega
        refine ⟨_, ?_, shows_medium hd hh hv (Nat.succ_pos k) (by omega)⟩
        simp [unsigned, fractionChars, exponentChars]
      · next he hlead =>
        obtain ⟨k, hk⟩ := Int.eq_ofNat_of_zero_le (show 0 ≤ -(e + ds.length) by omega)
        obtain rfl : e = -(k + ds.length) := by omega
        refine ⟨_, ?_, shows_small hd hv k⟩
        simp [unsigned, fractionChars, exponentChars]
  · obtain ⟨d, ds, rfl⟩ := List.exists_cons_of_ne_nil hd.nonempty
    obtain ⟨lead, hlead⟩ : ∃ lead : Int, e + (d :: ds).length - 1 = lead := ⟨_, rfl⟩
    obtain rfl : e = lead - ds.length := by
      rw [List.length_cons] at hlead
      push_cast at hlead
      omega
    rw [hlead]
    refine ⟨_, ?_, shows_scientific hd hv lead⟩
    cases ds with
    | nil => simp [unsigned, fractionChars, exponentChars]
    | cons c ds => simp [unsigned, fractionChars, exponentChars]

/-! ### Numbers -/

/-- A numeral that is written for a number. -/
inductive Writes : Numeral → Number → Prop
  | integer (n : Integer) : Writes (ofInt n.val) (.integer n)
  | float {n : Numeral} {x : Binary64} : n.negative = x.negative → n.chars = floatChars x →
    n.Shows x.shortest.digits x.shortest.exponent → Writes n (.float x)

theorem exists_writes (x : Number) : ∃ n : Numeral, n.Writes x := by
  cases x with
  | integer n => exact ⟨_, .integer n⟩
  | float x =>
    have hs : ∃ n : Numeral, n.unsigned =
        (if x.shortest.digits = 0 then ['0', '.', '0']
          else layout (decimalDigits x.shortest.digits) x.shortest.exponent) ∧
        n.Shows x.shortest.digits x.shortest.exponent := by
      split
      · next hz =>
        have hzero := shows_small digital_zero (m := 0) rfl 0
        refine ⟨_, rfl, hzero.legal, hzero.marked, ?_⟩
        rw [hzero.magnitude, hz, Nat.cast_zero, zero_mul, zero_mul]
      · next hz =>
        obtain ⟨n, hn⟩ := exists_shows_layout (Nat.pos_of_ne_zero hz) x.shortest.exponent
        exact ⟨n, hn⟩
    obtain ⟨n, hn, hs⟩ := hs
    refine ⟨{ n with negative := x.negative }, .float rfl ?_ (hs.signed x.negative)⟩
    rw [floatChars, ← hn, chars]
    cases x.negative <;> rfl

theorem Writes.chars {n : Numeral} {x : Number} (h : n.Writes x) : n.chars = x.chars := by
  cases h with
  | integer n => exact chars_ofInt n.val
  | float _ hc _ => exact hc

theorem Writes.legal {n : Numeral} {x : Number} (h : n.Writes x) : n.Legal := by
  cases h with
  | integer n => exact legal_ofInt n.val
  | float _ _ hs => exact hs.legal

/-- Numerals that say the same are written for one number. -/
theorem Writes.unique {n n' : Numeral} {x x' : Number} (h : n.Writes x) (h' : n'.Writes x')
    (hn : n.negative = n'.negative) (hw : n.whole = n'.whole) (hf : n.fraction = n'.fraction)
    (he : n.exponent.map power = n'.exponent.map power) : x = x' := by
  cases h with
  | integer a =>
    cases h' with
    | integer b =>
      have hv : a.val.natAbs = b.val.natAbs := by
        have ht (k : Nat) : Nat.ofDigitChars 10 (decimalDigits k) 0 = k :=
          Nat.ofDigitChars_toDigits (by decide) (by decide)
        rw [← ht a.val.natAbs, ← ht b.val.natAbs]
        exact congrArg (Nat.ofDigitChars 10 · 0) hw
      have hs : (a.val < 0) ↔ (b.val < 0) := decide_eq_decide.1 hn
      exact congrArg Number.integer (Subtype.ext (by omega))
    | float _ _ hs => exact absurd (Option.map_eq_none_iff.1 he.symm) (hs.marked hf.symm)
  | @float _ x hx _ hs =>
    cases h' with
    | integer b => exact absurd (Option.map_eq_none_iff.1 he) (hs.marked hf)
    | @float _ y hy _ hs' =>
      have hm : n.magnitude = n'.magnitude := by rw [magnitude, magnitude, hw, hf, he]
      rw [hs.magnitude, hs'.magnitude] at hm
      have hp := Binary64.place_eq_of_value_shortest hm
      have hb : x.negative = y.negative := hx.symm.trans (hn.trans hy)
      obtain ⟨s, p⟩ := x
      obtain ⟨t, q⟩ := y
      cases hp
      cases hb
      rfl

end Numeral

namespace Number

/-- What is read of the text of a number. -/
def reread (x : Number) : Option Number :=
  match readNumber x.chars with
  | .ok (n, _) => n
  | .error _ => none

variable {rest : List Char}

theorem readNumber_chars (x : Number) (h : Terminates rest) :
    readNumber (x.chars ++ rest) = .ok (x.reread, rest) := by
  obtain ⟨n, hn⟩ := Numeral.exists_writes x
  have hr := hn.legal.readNumber .nil
  rw [List.append_nil] at hr
  rw [reread, ← hn.chars, hr, hn.legal.readNumber h]

@[simp] theorem reread_integer (n : Integer) : (integer n).reread = some (.integer n) := by
  have h := readNumber_integer n .nil
  rw [List.append_nil] at h
  rw [reread, chars, h]

/-- A number and what follows it are told from the text of the two. -/
theorem chars_append_inj {x x' : Number} {rest' : List Char} (h : Terminates rest)
    (h' : Terminates rest') (he : x.chars ++ rest = x'.chars ++ rest') :
    x = x' ∧ rest = rest' := by
  obtain ⟨n, hn⟩ := Numeral.exists_writes x
  obtain ⟨n', hn'⟩ := Numeral.exists_writes x'
  rw [← hn.chars, ← hn'.chars] at he
  obtain ⟨hs, hw, hf, hp, hr⟩ := hn.legal.append_inj hn'.legal h h' he
  exact ⟨hn.unique hn' hs hw hf hp, hr⟩

end Number

end RemoteCall.Json
