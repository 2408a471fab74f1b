import Mathlib.Data.Finset.Card
import Mathlib.Data.List.Basic
import Mathlib.Order.Interval.Finset.Nat
import RemoteCall.Multipart.Form
import RemoteCall.Proofs.Multipart.ContentType
import RemoteCall.Proofs.Numeric.Digits
import RemoteCall.Proofs.Text.Utf8

/-!
Boundaries of forms: a content type names its boundary, and among more boundaries of one stamp than
a form has room for, one occurs in none of its parts.
-/

namespace RemoteCall.Multipart

open Numeric (hexAlphabet hexDigits_injective mem_hexAlphabet)
open Text (hexDigits)
open Text.Utf8 (encode encode_append encode_cons encodeChar_of_ascii mem_of_mem_encode)

def IsBoundary (b : List Char) : Prop :=
  ∃ stamp count : List Char, b = "jutge-".toList ++ stamp ++ '-' :: count ∧
    (∀ c ∈ stamp, c ∈ hexAlphabet) ∧ ∀ c ∈ count, c ∈ hexAlphabet

theorem isBoundary_candidate (stamp count : Nat) : IsBoundary (candidate stamp count) :=
  ⟨hexDigits stamp, hexDigits count, rfl, fun _ => mem_hexAlphabet, fun _ => mem_hexAlphabet⟩

def boundaryAlphabet : List Char := "jutge-".toList ++ hexAlphabet

namespace IsBoundary

variable {b : List Char} {c : Char}

theorem exists_cons (h : IsBoundary b) : ∃ cs, b = 'j' :: cs := by
  obtain ⟨stamp, count, rfl, -⟩ := h
  exact ⟨_, rfl⟩

theorem mem_alphabet (h : IsBoundary b) (hc : c ∈ b) : c ∈ boundaryAlphabet := by
  obtain ⟨stamp, count, rfl, hs, hn⟩ := h
  simp only [List.mem_append, List.mem_cons] at hc
  rcases hc with (hc | hc) | rfl | hc
  · exact List.mem_append_left _ hc
  · exact List.mem_append_right _ (hs c hc)
  · decide
  · exact List.mem_append_right _ (hn c hc)

theorem ascii (h : IsBoundary b) (hc : c ∈ b) : c.toNat < 0x80 := by
  have hv : boundaryAlphabet.all fun c => c.toNat < 0x80 := by decide
  simpa using List.all_eq_true.1 hv c (h.mem_alphabet hc)

theorem visible (h : IsBoundary b) (hc : c ∈ b) : Text.isBlank c = false := by
  have hv : boundaryAlphabet.all fun c => !Text.isBlank c := by decide
  simpa using List.all_eq_true.1 hv c (h.mem_alphabet hc)

theorem ne_of_not_mem (h : IsBoundary b) {d : Char} (hd : d ∉ boundaryAlphabet) : d ∉ b :=
  fun hm => hd (h.mem_alphabet hm)

theorem declarable (h : IsBoundary b) : Declarable b where
  ne_nil := by
    obtain ⟨cs, rfl⟩ := h.exists_cons
    exact List.cons_ne_nil _ cs
  semicolon := h.ne_of_not_mem (by decide)
  quote := h.ne_of_not_mem (by decide)
  head := fun _ hc => h.visible (List.mem_of_mem_head? hc)
  last := fun _ hc => h.visible (List.mem_of_getLast? hc)

end IsBoundary

/-! ### Content types -/

variable {b : List Char} (parts : List FormPart)

theorem toList_contentType :
    (encodeWith b parts).contentType.toList = (Spelling.ofBoundary b).text := by
  rw [Spelling.text_ofBoundary]
  exact String.toList_append.trans (congrArg (_ ++ ·) String.toList_ofList)

theorem isMultipart_encodeWith (h : IsBoundary b) :
    isMultipart (encodeWith b parts).contentType.toList = true := by
  rw [toList_contentType]
  exact (Spelling.declares_ofBoundary b).isMultipart_text h.declarable

theorem boundary_encodeWith (h : IsBoundary b) :
    boundary (encodeWith b parts).contentType.toList = .ok b := by
  rw [toList_contentType]
  exact (Spelling.declares_ofBoundary b).boundary_text h.declarable

/-! ### Fitting boundaries -/

/-- A boundary that occurs neither in the content of a field nor in its headers. -/
structure Apart (b : List Char) (p : FormPart) : Prop where
  body : ¬ encode b <:+: p.body
  headers : ¬ b <:+: headerBlock p

theorem apart_iff {b : List Char} {p : FormPart} : Apart b p ↔ clashes b p = false := by
  rw [clashes, Bool.or_eq_false_iff, Text.occurs_eq_false_iff, Text.occurs_eq_false_iff]
  exact ⟨fun h => ⟨h.body, h.headers⟩, fun h => ⟨h.1, h.2⟩⟩

def Fits (b : List Char) (parts : List FormPart) : Prop := ∀ p ∈ parts, Apart b p

theorem fits_iff {b : List Char} {parts : List FormPart} :
    Fits b parts ↔ parts.any (clashes b) = false := by
  simp only [Fits, apart_iff, List.any_eq_false, Bool.not_eq_true]

/-! ### Finding one -/

section Counting

variable {α : Type} {x : α}

theorem eq_of_append_cons_eq {as bs ts us : List α} (ht : x ∉ ts) (hu : x ∉ us)
    (h : as ++ x :: ts = bs ++ x :: us) : ts = us := by
  rcases List.append_eq_append_iff.1 h with ⟨c, -, hc⟩ | ⟨c, -, hc⟩
  · cases c with
    | nil => exact List.tail_eq_of_cons_eq hc
    | cons y c =>
      cases hc
      simp at ht
  · cases c with
    | nil => exact (List.tail_eq_of_cons_eq hc).symm
    | cons y c =>
      cases hc
      simp at hu

variable [DecidableEq α] {tail : Nat → List α} (front : List α)

/-- Texts that differ only behind their last `x` end at different places. -/
theorem card_occurring_le (hx : ∀ n, x ∉ tail n) (ht : ∀ n m, tail n = tail m → n = m)
    (s : Finset Nat) (text : List α) :
    (s.filter fun n => front ++ x :: tail n <:+: text).card ≤ text.length := by
  induction text using List.reverseRecOn with
  | nil => simp
  | append_singleton text y ih =>
    have hone : (s.filter fun n => front ++ x :: tail n <:+ text ++ [y]).card ≤ 1 := by
      rw [Finset.card_le_one]
      intro n hn m hm
      obtain ⟨as, ha⟩ := (Finset.mem_filter.1 hn).2
      obtain ⟨bs, hb⟩ := (Finset.mem_filter.1 hm).2
      have he : as ++ front ++ x :: tail n = bs ++ front ++ x :: tail m := by
        rw [List.append_assoc, ha, List.append_assoc, hb]
      exact ht n m (eq_of_append_cons_eq (hx n) (hx m) he)
    have hsub : (s.filter fun n => front ++ x :: tail n <:+: text ++ [y]) ⊆
        (s.filter fun n => front ++ x :: tail n <:+ text ++ [y]) ∪
          s.filter fun n => front ++ x :: tail n <:+: text := by
      intro n hn
      rw [Finset.mem_filter, List.infix_concat_iff] at hn
      rw [Finset.mem_union, Finset.mem_filter, Finset.mem_filter]
      exact hn.2.imp (⟨hn.1, ·⟩) (⟨hn.1, ·⟩)
    calc
      _ ≤ _ := Finset.card_le_card hsub
      _ ≤ 1 + text.length := (Finset.card_union_le _ _).trans (Nat.add_le_add hone ih)
      _ = (text ++ [y]).length := by rw [List.length_append, Nat.add_comm, List.length_singleton]

end Counting

theorem dash_not_mem_hexDigits (n : Nat) : '-' ∉ hexDigits n :=
  fun h => absurd (mem_hexAlphabet h) (by decide)

/-- The boundaries of a stamp that clash with a field are no more than its bytes and characters. -/
theorem card_clashing_le (stamp : Nat) (s : Finset Nat) (p : FormPart) :
    (s.filter fun n => clashes (candidate stamp n) p = true).card ≤
      p.body.length + (headerBlock p).length := by
  have hbody : (s.filter fun n => encode (candidate stamp n) <:+: p.body).card ≤
    p.body.length := by
    have he : ∀ n, encode (candidate stamp n) =
        encode ("jutge-".toList ++ hexDigits stamp) ++ 45 :: encode (hexDigits n) := by
      intro n
      change encode ("jutge-".toList ++ hexDigits stamp ++ '-' :: hexDigits n) = _
      rw [encode_append, encode_cons]
      rfl
    simp only [he]
    apply card_occurring_le
    · exact fun n h => dash_not_mem_hexDigits n (mem_of_mem_encode (by decide) h)
    · intro n m h
      apply hexDigits_injective
      rw [← Text.Utf8.decodeLossy_encode (hexDigits n), h, Text.Utf8.decodeLossy_encode]
  have hheaders : (s.filter fun n => candidate stamp n <:+: headerBlock p).card ≤
      (headerBlock p).length := by
    apply card_occurring_le
    · exact dash_not_mem_hexDigits
    · exact fun n m h => hexDigits_injective h
  simp only [clashes, Bool.or_eq_true, Text.occurs_eq_true_iff, Finset.filter_or]
  exact (Finset.card_union_le _ _).trans (Nat.add_le_add hbody hheaders)

theorem card_any_clashing_le (stamp : Nat) (s : Finset Nat) (parts : List FormPart) :
    (s.filter fun n => parts.any (clashes (candidate stamp n)) = true).card ≤ room parts := by
  induction parts with
  | nil => simp
  | cons p parts ih =>
    simp only [List.any_cons, Bool.or_eq_true, Finset.filter_or]
    exact (Finset.card_union_le _ _).trans (Nat.add_le_add (card_clashing_le stamp s p) ih)

/-- Among one more boundaries than a form has room for, one fits. -/
theorem exists_fitting (stamp count : Nat) (parts : List FormPart) :
    ∃ n, count ≤ n ∧ n ≤ count + room parts ∧ Fits (candidate stamp n) parts := by
  by_contra hc
  have hall : (Finset.Icc count (count + room parts)).filter
      (fun n => parts.any (clashes (candidate stamp n)) = true) =
        Finset.Icc count (count + room parts) := by
    rw [Finset.filter_eq_self]
    intro n hn
    rw [Finset.mem_Icc] at hn
    rw [← Bool.not_eq_false, ← fits_iff]
    exact fun hf => hc ⟨n, hn.1, hn.2, hf⟩
  have hle := card_any_clashing_le stamp (Finset.Icc count (count + room parts)) parts
  rw [hall, Nat.card_Icc] at hle
  omega

theorem fits_fittingCount_of_exists {stamp : Nat} {parts : List FormPart} {steps count : Nat}
    (h : ∃ n, count ≤ n ∧ n ≤ count + steps ∧ Fits (candidate stamp n) parts) :
    Fits (candidate stamp (fittingCount stamp parts steps count)) parts := by
  obtain ⟨n, hl, hu, hf⟩ := h
  induction steps generalizing count with
  | zero =>
    obtain rfl : n = count := Nat.le_antisymm hu hl
    exact hf
  | succ steps ih =>
    rw [fittingCount]
    split
    · next hc =>
      have hne : n ≠ count := by
        rintro rfl
        rw [fits_iff, hc] at hf
        cases hf
      exact ih (by omega) (by omega)
    · next hc => exact fits_iff.2 (Bool.eq_false_of_not_eq_true hc)

theorem fits_fittingCount (stamp count : Nat) (parts : List FormPart) :
    Fits (candidate stamp (fittingCount stamp parts (room parts) count)) parts :=
  fits_fittingCount_of_exists (exists_fitting stamp count parts)

end RemoteCall.Multipart
