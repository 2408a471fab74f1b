import RemoteCall.Json.Printer
import RemoteCall.Proofs.Numeric.Digits
import RemoteCall.Proofs.Numeric.Spelling
import RemoteCall.Proofs.Outcome
import RemoteCall.Proofs.Text.Pieces

/-!
Numbers as they are written: a sign, digits, and perhaps digits behind a point and an exponent. Main
statement: the reader takes the text of such a numeral apart again.
-/

namespace RemoteCall.Numeric

open Text (takeWhile_append_eq_left dropWhile_append_eq_right)

theorem digital_decimalDigits (n : Nat) : Digital (decimalDigits n) where
  nonempty := decimalDigits_ne_nil n
  digits _ := isDigit_of_mem_decimalDigits

namespace Digital

variable {ds rest : List Char}

theorem readDigits (h : Digital ds) (hr : ∀ c ∈ rest.head?, isDigit c = false) :
    Json.readDigits (ds ++ rest) = .ok (ds, rest) := by
  unfold Json.readDigits
  rw [takeWhile_append_eq_left h.digits hr, dropWhile_append_eq_right h.digits hr]
  cases ds with
  | nil => exact absurd rfl h.nonempty
  | cons d ds => rfl

/-- What begins with a digit does not begin with another character. -/
theorem append_ne_cons (h : Digital ds) {c : Char} (hc : isDigit c = false) (cs : List Char) :
    ds ++ rest ≠ c :: cs := by
  obtain ⟨d, ds, rfl⟩ := List.exists_cons_of_ne_nil h.nonempty
  rintro he
  cases he
  cases hc.symm.trans (h.digits _ List.mem_cons_self)

end Digital

end RemoteCall.Numeric

namespace RemoteCall.Json

open Numeric

/-- What may follow a value within a text. -/
def Terminates (rest : List Char) : Prop := ∀ c ∈ rest.head?, c = ',' ∨ c = ']' ∨ c = '\x7d'

namespace Terminates

variable {rest : List Char}

theorem nil : Terminates [] := fun _ h => nomatch h

theorem cons {c : Char} (h : c = ',' ∨ c = ']' ∨ c = '\x7d') (cs : List Char) :
    Terminates (c :: cs) := by
  intro d hd
  cases hd
  exact h

theorem not_digit (h : Terminates rest) : ∀ c ∈ rest.head?, isDigit c = false := by
  intro c hc
  rcases h c hc with rfl | rfl | rfl <;> decide

end Terminates

/-! ### Numerals -/

/-- The parts of a number as it is written; an exponent has a sign, too. -/
structure Numeral where
  negative : Bool
  whole : List Char
  fraction : Option (List Char)
  exponent : Option (Bool × List Char)

namespace Numeral

def fractionChars : Option (List Char) → List Char
  | none => []
  | some ds => '.' :: ds

def exponentChars : Option (Bool × List Char) → List Char
  | none => []
  | some (minus, ds) => 'e' :: (if minus then '-' else '+') :: ds

def unsigned (n : Numeral) : List Char :=
  n.whole ++ (fractionChars n.fraction ++ exponentChars n.exponent)

def chars (n : Numeral) : List Char := if n.negative then '-' :: n.unsigned else n.unsigned

/-- The power of ten that an exponent says. -/
def power (e : Bool × List Char) : Int :=
  let n : Int := (natOfDigits? 10 e.2).getD 0
  if e.1 then -n else n

/-- A zero before the point stands alone. -/
structure Legal (n : Numeral) : Prop where
  whole : Digital n.whole
  lead : n.whole.head? = some '0' → n.whole.length = 1
  fraction : ∀ ds ∈ n.fraction, Digital ds
  exponent : ∀ e ∈ n.exponent, Digital e.2

variable {rest : List Char}

theorem exponentChars_stops (e : Option (Bool × List Char)) (h : Terminates rest) :
    ∀ c ∈ (exponentChars e ++ rest).head?, isDigit c = false := by
  cases e with
  | none => exact h.not_digit
  | some e =>
    intro c hc
    cases hc
    decide

theorem fractionChars_stops (f : Option (List Char)) (e : Option (Bool × List Char))
    (h : Terminates rest) :
    ∀ c ∈ (fractionChars f ++ (exponentChars e ++ rest)).head?, isDigit c = false := by
  cases f with
  | none => exact exponentChars_stops e h
  | some f =>
    intro c hc
    cases hc
    decide

theorem readExponent_chars {e : Option (Bool × List Char)} (he : ∀ p ∈ e, Digital p.2)
    (h : Terminates rest) :
    readExponent (exponentChars e ++ rest) = .ok (e.map power, rest) := by
  cases e with
  | none =>
    cases rest with
    | nil => rfl
    | cons c rest => rcases h c rfl with rfl | rfl | rfl <;> rfl
  | some e =>
    obtain ⟨minus, ds⟩ := e
    have hd := (he _ rfl).readDigits h.not_digit
    cases minus with
    | true =>
      simp only [exponentChars, if_true, List.cons_append, readExponent, hd]
      rfl
    | false =>
      simp only [exponentChars, Bool.false_eq_true, if_false, List.cons_append, readExponent, hd]
      rfl

theorem readFraction_chars {f : Option (List Char)} (hf : ∀ ds ∈ f, Digital ds)
    (e : Option (Bool × List Char)) (h : Terminates rest) :
    readFraction (fractionChars f ++ (exponentChars e ++ rest)) =
      .ok (f, exponentChars e ++ rest) := by
  cases f with
  | none =>
    have hne : ∀ cs, exponentChars e ++ rest ≠ '.' :: cs := by
      intro cs he
      cases e with
      | none => rcases h '.' (by rw [show rest = '.' :: cs from he]; rfl) with h | h | h <;> cases h
      | some e => cases he
    rw [fractionChars, List.nil_append, readFraction]
    exact fun cs he => hne cs he
  | some ds =>
    rw [fractionChars, List.cons_append, readFraction,
      (hf ds rfl).readDigits (exponentChars_stops e h)]
    rfl

theorem Legal.readWhole {n : Numeral} (hn : n.Legal) (h : ∀ c ∈ rest.head?, isDigit c = false) :
    Json.readWhole (n.whole ++ rest) = .ok (n.whole, rest) := by
  have hl : ¬ (n.whole.head? = some '0' ∧ n.whole.length ≠ 1) := fun hz => hz.2 (hn.lead hz.1)
  rw [Json.readWhole, hn.whole.readDigits h]
  simp only [bind, Except.bind, hl, if_false]
  rfl

/-- Without its sign a numeral begins with a digit. -/
theorem Legal.unsigned_ne {n : Numeral} (hn : n.Legal) (cs : List Char) :
    n.unsigned ++ rest ≠ '-' :: cs := by
  rw [unsigned, List.append_assoc]
  exact hn.whole.append_ne_cons (by decide) cs

/-- A numeral is taken apart into the parts that it has. -/
theorem Legal.readNumber {n : Numeral} (hn : n.Legal) (h : Terminates rest) :
    Json.readNumber (n.chars ++ rest) =
      .ok (numberOf n.negative n.whole n.fraction (n.exponent.map power), rest) := by
  have hw := hn.readWhole (fractionChars_stops n.fraction n.exponent h)
  have hf := readFraction_chars hn.fraction n.exponent h
  have he := readExponent_chars hn.exponent h
  have hc : n.unsigned ++ rest =
      n.whole ++ (fractionChars n.fraction ++ (exponentChars n.exponent ++ rest)) := by
    rw [unsigned, List.append_assoc, List.append_assoc]
  rw [chars]
  cases n.negative with
  | true =>
    rw [if_pos rfl, List.cons_append, hc]
    unfold Json.readNumber
    simp only [hw, hf, he, Outcome.mapError_ok, bind, Except.bind]
    rfl
  | false =>
    have hm (cs : List Char) : n.unsigned ++ rest ≠ '-' :: cs := hn.unsigned_ne cs
    rw [hc] at hm
    rw [if_neg Bool.false_ne_true, hc]
    unfold Json.readNumber
    split
    next hs =>
    split at hs
    · next cs he => exact absurd he (hm cs)
    · cases hs
      simp only [hw, hf, he, Outcome.mapError_ok, bind, Except.bind]
      rfl

/-- What a numeral says and what follows it are told from the text of the two. -/
theorem Legal.append_inj {n n' : Numeral} {rest' : List Char} (hn : n.Legal) (hn' : n'.Legal)
    (h : Terminates rest) (h' : Terminates rest') (he : n.chars ++ rest = n'.chars ++ rest') :
    n.negative = n'.negative ∧ n.whole = n'.whole ∧ n.fraction = n'.fraction ∧
      n.exponent.map power = n'.exponent.map power ∧ rest = rest' := by
  have hs : n.negative = n'.negative ∧ n.unsigned ++ rest = n'.unsigned ++ rest' := by
    rw [chars, chars] at he
    cases hb : n.negative with
    | true =>
      cases hb' : n'.negative with
      | true =>
        rw [hb, hb', if_pos rfl, if_pos rfl] at he
        exact ⟨rfl, (List.cons.inj he).2⟩
      | false =>
        rw [hb, hb', if_pos rfl, if_neg Bool.false_ne_true] at he
        exact absurd he.symm (hn'.unsigned_ne _)
    | false =>
      cases hb' : n'.negative with
      | true =>
        rw [hb, hb', if_pos rfl, if_neg Bool.false_ne_true] at he
        exact absurd he (hn.unsigned_ne _)
      | false =>
        rw [hb, hb', if_neg Bool.false_ne_true, if_neg Bool.false_ne_true] at he
        exact ⟨rfl, he⟩
  obtain ⟨hs, hu⟩ := hs
  simp only [unsigned, List.append_assoc] at hu
  have hw := hn.readWhole (fractionChars_stops n.fraction n.exponent h)
  rw [hu, hn'.readWhole (fractionChars_stops n'.fraction n'.exponent h')] at hw
  obtain ⟨hwhole, hw⟩ := Prod.mk.inj (Except.ok.inj hw)
  have hf := readFraction_chars hn.fraction n.exponent h
  rw [← hw, readFraction_chars hn'.fraction n'.exponent h'] at hf
  obtain ⟨hfraction, hf⟩ := Prod.mk.inj (Except.ok.inj hf)
  have hx := readExponent_chars hn.exponent h
  rw [← hf, readExponent_chars hn'.exponent h'] at hx
  obtain ⟨hexponent, hx⟩ := Prod.mk.inj (Except.ok.inj hx)
  exact ⟨hs, hwhole.symm, hfraction.symm, hexponent.symm, hx.symm⟩

end Numeral

end RemoteCall.Json
