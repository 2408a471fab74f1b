import RemoteCall.Proofs.Multipart.Boundary
import RemoteCall.Proofs.Multipart.Headers

/-!
What is read back of an encoded form. The body of a form is laid out with one section for each
field, and the delimiter occurs nowhere else: not in a field, nor across an end of a field.
-/

namespace RemoteCall.Multipart

open Text (First infix_of_infix_append infix_of_infix_between lineEnd)
open Text.Utf8 (encode infix_of_encode mem_of_mem_encode)

/-! ### Delimiters -/

namespace IsBoundary

variable {b : List Char}

theorem exists_encode_cons (h : IsBoundary b) : ∃ bs, encode b = 106 :: bs := by
  obtain ⟨cs, rfl⟩ := h.exists_cons
  exact ⟨encode cs, rfl⟩

theorem not_mem_encode (h : IsBoundary b) : ∀ x ∈ crlf, x ∉ encode b := by
  intro x hx hm
  rcases List.mem_cons.1 hx with rfl | hx
  · exact h.ne_of_not_mem (by decide) (mem_of_mem_encode (a := '\r') (by decide) hm)
  · rw [List.mem_singleton] at hx
    subst hx
    exact h.ne_of_not_mem (by decide) (mem_of_mem_encode (a := '\n') (by decide) hm)

/-- What stands in front of the end of a delimiter has no room for its boundary. -/
theorem not_infix_dashes_dropLast (h : IsBoundary b) :
    ¬ encode b <:+: dashes ++ (encode b).dropLast := by
  obtain ⟨bs, hj⟩ := h.exists_encode_cons
  rw [hj]
  intro hi
  have hl := (infix_of_infix_append (by decide) hi).length_le
  rw [List.length_dropLast, List.length_cons] at hl
  exact Nat.not_succ_le_self bs.length hl

end IsBoundary

/-- The delimiter behind a field is the first: it occurs neither in the headers nor in the content,
and the ends of lines around them have none of its characters. -/
theorem first_delimiter {b : List Char} (hb : IsBoundary b) {p : FormPart} (h : Apart b p)
    (rest : List UInt8) :
    First (crlf ++ (dashes ++ encode b))
      ((sectionOf p).raw ++ (crlf ++ (dashes ++ encode b)) ++ rest)
      (sectionOf p).raw rest := by
  have hne : encode b ≠ [] := by
    obtain ⟨bs, hj⟩ := hb.exists_encode_cons
    exact hj ▸ List.cons_ne_nil _ bs
  have hd : crlf ++ (dashes ++ encode b) ≠ [] := List.cons_ne_nil _ _
  refine (First.iff_not_occurring hd).2 ⟨rfl, fun hi => ?_⟩
  have he : encode b <:+: encode (headerBlock p) ++
      ((crlf ++ crlf) ++ (p.body ++ (crlf ++ (dashes ++ (encode b).dropLast)))) := by
    rw [List.dropLast_append_of_ne_nil (List.append_ne_nil_of_right_ne_nil dashes hne),
      List.dropLast_append_of_ne_nil hne] at hi
    simp only [sectionOf, List.append_assoc] at hi ⊢
    exact List.infix_append_right.trans (List.infix_append_right.trans hi)
  rcases infix_of_infix_between hne (List.cons_ne_nil _ _)
    (fun x hx => hb.not_mem_encode x ((List.mem_append.1 hx).elim id id)) he with he | he
  · exact h.headers (infix_of_encode (fun _ => hb.ascii) he)
  · rcases infix_of_infix_between hne (List.cons_ne_nil _ _) hb.not_mem_encode he with he | he
    · exact h.body he
    · exact hb.not_infix_dashes_dropLast he

theorem placed_sections {b : List Char} (hb : IsBoundary b) {parts : List FormPart}
    (h : Fits b parts) (epilogue : List UInt8) :
    Layout.Placed (dashes ++ encode b) epilogue (parts.map sectionOf) := by
  induction parts with
  | nil => exact .nil
  | cons p parts ih =>
    refine .cons _ _ ?_ (First.nil_before crlf _) ?_ ?_
    · change ¬ dashes <+: crlf
      decide
    · exact first_delimiter hb (h p List.mem_cons_self) _
    · exact ih fun q hq => h q (List.mem_cons_of_mem p hq)

def layoutOf (parts : List FormPart) : Layout := ⟨[], parts.map sectionOf, crlf⟩

theorem bytes_layoutOf (b : List Char) (parts : List FormPart) :
    (layoutOf parts).bytes (dashes ++ encode b) = (encodeWith b parts).body := by
  rw [Layout.bytes, layoutOf, List.nil_append]
  change _ = parts.flatMap (partBytes b) ++ dashes ++ encode b ++ dashes ++ crlf
  induction parts with
  | nil => simp [Layout.behind]
  | cons p parts ih =>
    simp only [List.map_cons, Layout.behind, List.flatMap_cons, List.append_assoc] at ih ⊢
    rw [ih]
    simp [partBytes, sectionOf]

/-- What is read back of a form are the parts of its sections. -/
theorem decode_encodeWith_eq_ok_iff {b : List Char} (hb : IsBoundary b) {parts : List FormPart}
    (hf : Fits b parts) {qs : List Part} :
    decode (encodeWith b parts).contentType.toList (encodeWith b parts).body = .ok qs ↔
      List.Forall₂ (fun p q => IsPart (sectionOf p).raw q) parts qs := by
  have ho : First (dashes ++ encode b) (encodeWith b parts).body []
      (Layout.behind (dashes ++ encode b) crlf (parts.map sectionOf)) :=
    bytes_layoutOf b parts ▸ First.nil_before _ _
  rw [decode_of_opening (isMultipart_encodeWith parts hb) (boundary_encodeWith parts hb) ho,
    (placed_sections hb hf crlf).partsFrom_eq_ok_iff, List.forall₂_map_left_iff]

theorem decode_encodeWith_eq_received_iff {b : List Char} (hb : IsBoundary b)
    {parts : List FormPart} (hf : Fits b parts) :
    decode (encodeWith b parts).contentType.toList (encodeWith b parts).body =
        .ok (parts.map received) ↔ ∀ p ∈ parts, Confined p := by
  rw [decode_encodeWith_eq_ok_iff hb hf, List.forall₂_map_right_iff, List.forall₂_same]
  simp only [isPart_received_iff]

theorem decode_encodeWith {b : List Char} (hb : IsBoundary b) {parts : List FormPart}
    (hf : Fits b parts) (ht : ∀ p ∈ parts, TypeOnLine p) :
    decode (encodeWith b parts).contentType.toList (encodeWith b parts).body =
      .ok (parts.map received) :=
  (decode_encodeWith_eq_received_iff hb hf).2 fun p hp => (ht p hp).confined

theorem decode_encodeForm_eq_ok_iff (stamp count : Nat) {parts : List FormPart} {qs : List Part} :
    decode (encodeForm stamp count parts).1.contentType.toList
      (encodeForm stamp count parts).1.body =
        .ok qs ↔
      List.Forall₂ (fun p q => IsPart (sectionOf p).raw q) parts qs :=
  decode_encodeWith_eq_ok_iff (isBoundary_candidate _ _) (fits_fittingCount stamp count parts)

theorem decode_encodeForm_eq_received_iff (stamp count : Nat) {parts : List FormPart} :
    decode (encodeForm stamp count parts).1.contentType.toList
      (encodeForm stamp count parts).1.body =
        .ok (parts.map received) ↔ ∀ p ∈ parts, Confined p :=
  decode_encodeWith_eq_received_iff (isBoundary_candidate _ _) (fits_fittingCount stamp count parts)

theorem decode_encodeForm (stamp count : Nat) {parts : List FormPart}
    (ht : ∀ p ∈ parts, TypeOnLine p) :
    decode (encodeForm stamp count parts).1.contentType.toList
      (encodeForm stamp count parts).1.body =
      .ok (parts.map received) :=
  decode_encodeWith (isBoundary_candidate _ _) (fits_fittingCount stamp count parts) ht

/-- Decoding inverts encoding with every boundary that fits, and encoding takes one that fits. -/
theorem decode_inverts_encode (parts : List FormPart) (ht : ∀ p ∈ parts, TypeOnLine p) :
    (∀ b, IsBoundary b → Fits b parts →
      decode (encodeWith b parts).contentType.toList (encodeWith b parts).body =
        .ok (parts.map received)) ∧
    ∀ stamp count, ∃ b, IsBoundary b ∧ Fits b parts ∧
      (encodeForm stamp count parts).1 = encodeWith b parts :=
  ⟨fun _ hb hf => decode_encodeWith hb hf ht,
    fun stamp count =>
      ⟨_, isBoundary_candidate _ _, fits_fittingCount stamp count parts, rfl⟩⟩

/-- A text, and a file that looks like the end of the form. -/
def deceptive : List FormPart :=
  [.text "a\"b" "c", .ofFile "f" "x\r\ny" " text/plain " [13, 10, 45, 45, 13, 10, 0, 45, 45]]

theorem decode_inverts_encode_deceptive :
    (∀ p ∈ deceptive, TypeOnLine p) ∧ IsBoundary "jutge-1-0".toList ∧
      Fits "jutge-1-0".toList deceptive ∧
      decode (encodeWith "jutge-1-0".toList deceptive).contentType.toList
        (encodeWith "jutge-1-0".toList deceptive).body = .ok (deceptive.map received) := by
  have ht : ∀ p ∈ deceptive, TypeOnLine p := by
    intro p hp filename type h
    simp only [deceptive, List.mem_cons, List.not_mem_nil, or_false] at hp
    rcases hp with rfl | rfl
    · cases h
    · cases h
      exact Text.not_lineEnd_infix_of_not_mem (by decide)
  have hb : IsBoundary "jutge-1-0".toList := isBoundary_candidate 1 0
  have hf : Fits "jutge-1-0".toList deceptive := fits_iff.2 (by decide +kernel)
  exact ⟨ht, hb, hf, (decode_inverts_encode deceptive ht).1 _ hb hf⟩

end RemoteCall.Multipart
