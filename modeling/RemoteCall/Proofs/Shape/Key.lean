import RemoteCall.Proofs.Json.Numeral
import RemoteCall.Proofs.Shape.Coercion

/-!
Keys that stand for numbers. Main statement: a key that is read strictly is read leniently as the
same number, for what the reader of numbers takes for a whole one spells it.
-/

namespace RemoteCall.Json

open Numeric
open Outcome (bind_eq_ok_iff mapError_eq_ok_iff)

/-! ### Reading whole numbers -/

theorem eq_of_extend {n m : Nat} {ds : List Char} (h : extend n ds = (m, 0)) :
    m = Nat.ofDigitChars 10 ds n := by
  induction ds generalizing n with
  | nil =>
    cases h
    rfl
  | cons d ds ih =>
    rw [extend] at h
    split at h
    · rw [ih h, Nat.ofDigitChars_cons, Nat.mul_comm 10]
    · cases h

theorem readDigits_eq_ok {cs ds rest : List Char} (h : readDigits cs = .ok (ds, rest)) :
    Digital ds ∧ cs = ds ++ rest := by
  unfold readDigits at h
  split at h
  · cases h
  · cases h
  · next hn _ =>
    obtain ⟨rfl, rfl⟩ := Prod.mk.inj (Except.ok.inj h)
    exact ⟨⟨hn, List.all_eq_true.1 List.all_takeWhile⟩,
      List.takeWhile_append_dropWhile.symm⟩

theorem readFraction_eq_none {cs rest : List Char} (h : readFraction cs = .ok (none, rest)) :
    cs = rest := by
  unfold readFraction at h
  split at h
  · obtain ⟨_, -, he⟩ := bind_eq_ok_iff.1 h
    cases he
  · cases h
    rfl

theorem readExponent_eq_none {cs rest : List Char} (h : readExponent cs = .ok (none, rest)) :
    cs = rest := by
  unfold readExponent at h
  split at h
  · cases h
    rfl
  · split at h
    · obtain ⟨_, -, he⟩ := bind_eq_ok_iff.1 h
      cases he
    · cases h
      rfl

/-- Digits alone make a whole number, and the number that they spell. -/
theorem numberOf_eq_integer {negative : Bool} {whole : List Char} {fraction : Option (List Char)}
    {e : Option Int} {n : Integer} (h : numberOf negative whole fraction e = some (.integer n)) :
    fraction = none ∧ e = none ∧
      n.val = if negative then -(Nat.ofDigitChars 10 whole 0 : Int)
        else Nat.ofDigitChars 10 whole 0 := by
  rw [numberOf] at h
  rcases hx : extend 0 whole with ⟨m, left⟩
  rw [hx] at h
  dsimp only at h
  split at h
  · rw [← eq_of_extend hx]
    split at h
    · next k hk =>
      cases h
      by_cases hz : negative = true ∧ m = 0
      · rw [if_pos hz] at hk
        cases hk
      · rw [if_neg hz] at hk
        exact ⟨rfl, rfl, Lax.ofInt?_eq_some_iff.1 hk⟩
    · obtain ⟨_, -, he⟩ := Option.map_eq_some_iff.1 h
      cases he
  · obtain ⟨_, -, he⟩ := Option.map_eq_some_iff.1 h
    cases he

theorem readWhole_eq_ok {cs ds rest : List Char} (h : readWhole cs = .ok (ds, rest)) :
    Digital ds ∧ cs = ds ++ rest := by
  obtain ⟨⟨ds', rest'⟩, hd, h⟩ := bind_eq_ok_iff.1 h
  dsimp only at h
  split at h
  · cases h
  · cases h
    exact readDigits_eq_ok hd

/-- What is read as a whole number spells it. -/
theorem spells_of_readNumber {cs : List Char} {n : Integer}
    (h : readNumber cs = .ok (some (.integer n), [])) : Spells cs n.val := by
  unfold readNumber at h
  obtain ⟨⟨whole, rest⟩, hw, h⟩ := bind_eq_ok_iff.1 h
  obtain ⟨⟨fraction, rest'⟩, hf, h⟩ := bind_eq_ok_iff.1 h
  obtain ⟨⟨e, rest''⟩, he, h⟩ := bind_eq_ok_iff.1 h
  obtain ⟨hm, hr⟩ := Prod.mk.inj (Except.ok.inj h)
  obtain ⟨hn, hn', hv⟩ := numberOf_eq_integer hm
  subst hn hn' hr
  obtain ⟨hd, hcs⟩ := readWhole_eq_ok (mapError_eq_ok_iff.1 hw)
  obtain rfl : rest = rest' := readFraction_eq_none (mapError_eq_ok_iff.1 hf)
  obtain rfl : rest = [] := readExponent_eq_none (mapError_eq_ok_iff.1 he)
  rw [List.append_nil] at hcs
  rw [hv]
  clear hv hm hw h
  revert hcs
  split
  · rintro rfl
    exact .minus ⟨hd, rfl⟩
  · rintro rfl
    exact .plain ⟨hd, rfl⟩

end RemoteCall.Json

namespace RemoteCall

open Outcome (bind_eq_ok_iff mapError_eq_ok_iff)

theorem Decoder.integer_eq_ok_iff {w : Width} {v : Json} {x : Datum} :
    Decoder.integer w v = .ok x ↔
      ∃ n : Integer, v = .integer n ∧ w.Holds n.val ∧ x = .integer n := by
  constructor
  · intro h
    unfold Decoder.integer at h
    split at h
    · next n =>
      split at h
      · next hw =>
        cases h
        exact ⟨n, rfl, hw, rfl⟩
      · cases h
    · cases h
  · rintro ⟨n, rfl, hw, rfl⟩
    exact if_pos hw

/-- A text that spells a whole number is taken for it. -/
theorem Lax.asInteger_of_spells {s : String} {n : Integer} (h : Numeric.Spells s.toList n.val) :
    Lax.asInteger (.string s) = .integer n := by
  rw [Lax.asInteger, Lax.integer?_eq_some_iff.2 (.text (Text.framed_self _) h)]
  rfl

/-- A key that is read strictly as a number begins with it and ends with it. -/
theorem Decoder.numericKey_eq_ok {w : Width} {cs : List Char} {name : String}
    (h : Decoder.numericKey w cs = .ok name) :
    ∃ n : Integer, Numeric.Spells cs n.val ∧ w.Holds n.val ∧
      name = (Json.integer n).text := by
  unfold Decoder.numericKey at h
  split at h
  · cases h
  · split at h
    · split at h
      · cases h
      · cases h
      · next n rest hr =>
        obtain ⟨x, hx, h⟩ := bind_eq_ok_iff.1 h
        obtain ⟨m, hm, hw, -⟩ := Decoder.integer_eq_ok_iff.1 (mapError_eq_ok_iff.1 hx)
        cases hm
        split at h
        · next he =>
          cases h
          rw [List.isEmpty_iff.1 he] at hr
          exact ⟨m, Json.spells_of_readNumber hr, hw, rfl⟩
        · cases h
    · cases h

theorem Lax.key_eq_ok {k : KeyShape} {key name : String} (h : Decoder.key k key = .ok name) :
    Lax.key k key = .ok name := by
  cases k with
  | text => exact h
  | integer w =>
    obtain ⟨n, hs, hw, rfl⟩ := Decoder.numericKey_eq_ok h
    have hn : Decoder.integer w (.integer n) = .ok (.integer n) :=
      Decoder.integer_eq_ok_iff.2 ⟨n, rfl, hw, rfl⟩
    rw [Lax.key, Lax.asInteger_of_spells hs]
    change (Decoder.integer w (.integer n)).map _ = _
    rw [hn]
    rfl

end RemoteCall
