import RemoteCall.Json.Printer
import RemoteCall.Proofs.Numeric.Digits

/-! Reading back the text of strings. -/

namespace RemoteCall.Json

open Numeric

theorem hex4?_control {n : Nat} (h : n < 0x20) :
    hex4? '0' '0' (Nat.digitChar (n / 16)) (Nat.digitChar (n % 16)) = some n := by
  have h₁ : digit? 16 (Nat.digitChar (n / 16)) = some (n / 16) :=
    digit?_digitChar (by decide) (by omega)
  have h₂ : digit? 16 (Nat.digitChar (n % 16)) = some (n % 16) :=
    digit?_digitChar (by decide) (by omega)
  have h₀ : digit? 16 '0' = some 0 := by decide
  simp only [hex4?, h₀, h₁, h₂, Option.bind_eq_bind, Option.bind_some]
  congr 1
  omega

theorem consNumber_of_control {n : Nat} (h : n < 0x20) (us : Units) :
    Units.consNumber n us = .char (Char.ofNat n) :: us := by
  have hl : Units.isLead n = false := by
    simp only [Units.isLead, Bool.and_eq_false_iff, decide_eq_false_iff_not]
    omega
  have ht : Units.isTrail n = false := by
    simp only [Units.isTrail, Bool.and_eq_false_iff, decide_eq_false_iff_not]
    omega
  simp [Units.consNumber, hl, ht]

theorem readUnits_plain {c : Char} (hq : c ≠ '"') (hb : c ≠ '\\') (h : ¬ c.toNat < 0x20)
    (cs : List Char) : readUnits (c :: cs) = (.char c :: (readUnits cs).1, (readUnits cs).2) := by
  rw [readUnits, if_neg h]
  all_goals simp [hq, hb]

theorem readUnits_escaped {c e : Char} (he : escaped? e = some c) (hu : e ≠ 'u')
    (cs : List Char) :
    readUnits ('\\' :: e :: cs) = (.char c :: (readUnits cs).1, (readUnits cs).2) := by
  rw [readUnits, he]
  all_goals simp [hu]

theorem readUnits_control {c : Char} (h : c.toNat < 0x20) (cs : List Char) :
    readUnits (['\\', 'u', '0', '0', Nat.digitChar (c.toNat / 16), Nat.digitChar (c.toNat % 16)]
      ++ cs) = (.char c :: (readUnits cs).1, (readUnits cs).2) := by
  simp only [List.cons_append, List.nil_append]
  rw [readUnits, hex4?_control h]
  simp only [consNumber_of_control h, Char.ofNat_toNat]

/-- Each way to write a character in a string is read as that character. -/
theorem readUnits_escape (c : Char) (cs : List Char) :
    readUnits (escape c ++ cs) = (.char c :: (readUnits cs).1, (readUnits cs).2) := by
  by_cases hq : c = '"'
  · subst hq
    exact readUnits_escaped (by decide) (by decide) cs
  by_cases hb : c = '\\'
  · subst hb
    exact readUnits_escaped (by decide) (by decide) cs
  simp only [escape, hq, hb, if_false]
  split
  · next h => exact h ▸ readUnits_escaped (by decide) (by decide) cs
  split
  · next h => exact h ▸ readUnits_escaped (by decide) (by decide) cs
  split
  · next h => exact h ▸ readUnits_escaped (by decide) (by decide) cs
  split
  · next h => exact h ▸ readUnits_escaped (by decide) (by decide) cs
  split
  · next h => exact h ▸ readUnits_escaped (by decide) (by decide) cs
  split
  · next h => exact readUnits_control h cs
  · next h => exact readUnits_plain hq hb h cs

def unitsOf (cs : List Char) : Units := cs.map .char

theorem readUnits_text (cs rest : List Char) :
    readUnits (cs.flatMap escape ++ '"' :: rest) = (unitsOf cs, .ok rest) := by
  induction cs with
  | nil => rfl
  | cons c cs ih =>
    rw [List.flatMap_cons, List.append_assoc, readUnits_escape, ih]
    rfl

@[simp] theorem text?_unitsOf (cs : List Char) : (unitsOf cs).text? = some cs := by
  induction cs with
  | nil => rfl
  | cons c cs ih =>
    rw [unitsOf, List.map_cons, Units.text?, ← unitsOf, ih]
    rfl

theorem keyOf_unitsOf (source cs rest : List Char) :
    keyOf source (unitsOf cs, .ok rest) = ⟨.ok (String.ofList cs), source⟩ := by
  simp only [keyOf, text?_unitsOf]

end RemoteCall.Json
