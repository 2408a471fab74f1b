import RemoteCall.Proofs.Multipart.Grammar

/-!
Where a multipart body ends. Main statement: a body that is accepted ends with the dashes behind its
last delimiter; what follows them does not count, and nothing that stops sooner is accepted.
-/

namespace RemoteCall.Multipart

open Text (First)

/-- `message` is read as `ps` whatever follows it, and no part of it from the front is read at
all. -/
structure Whole (read : List UInt8 → Except Breach (List Part)) (message : List UInt8)
    (ps : List Part) : Prop where
  extended : ∀ s, read (message ++ s) = .ok ps
  cut : ∀ k < message.length, ∃ breach, read (message.take k) = .error breach

theorem take_append_of_length_le {α : Type} {xs : List α} (ys : List α) {k : Nat}
    (h : xs.length ≤ k) : (xs ++ ys).take k = xs ++ ys.take (k - xs.length) := by
  rw [List.take_append, List.take_of_length_le h]

theorem crlf_ne_nil : crlf ≠ [] := List.cons_ne_nil _ _

theorem dashes_append_ne_nil (bs : List UInt8) : dashes ++ bs ≠ [] := List.cons_ne_nil _ _

theorem crlf_append_ne_nil (bs : List UInt8) : crlf ++ bs ≠ [] := List.cons_ne_nil _ _

variable {delimiter : List UInt8}

theorem whole_dashes : Whole (partsFrom delimiter) dashes [] := by
  refine ⟨fun s => partsFrom_of_dashes (List.prefix_append dashes s),
    fun k hk => ⟨.truncated, ?_⟩⟩
  have hl : (dashes.take k).length < 2 := by
    rw [List.length_take]
    exact Nat.lt_of_le_of_lt (Nat.min_le_left k _) hk
  apply partsFrom_of_no_line
  · intro hp
    exact absurd hp.length_le (Nat.not_le_of_lt hl)
  · intro hi
    exact absurd hi.length_le (Nat.not_le_of_lt hl)

/-- A section in front of a whole message, cut at its line, in its part, or behind its delimiter. -/
theorem Whole.section {padding rest raw after message : List UInt8} {bs : List UInt8} {p : Part}
    {ps : List Part} (hn : ¬ dashes <+: bs) (hl : First crlf bs padding rest)
    (hd : First (crlf ++ delimiter) rest raw after) (hp : IsPart raw p)
    (hw : Whole (partsFrom delimiter) message ps) :
    Whole (partsFrom delimiter) (padding ++ crlf ++ (raw ++ (crlf ++ delimiter) ++ message))
      (p :: ps) := by
  have hs : ¬ dashes <+: padding ++ crlf := by
    rw [hl.eq] at hn
    exact mt (Layout.dashes_prefix_iff _).2 hn
  have hline : ∀ s, First crlf (padding ++ crlf ++ s) padding s := hl.replace_after crlf_ne_nil
  have hpart : ∀ s, First (crlf ++ delimiter) (raw ++ (crlf ++ delimiter) ++ s) raw s :=
    hd.replace_after (crlf_append_ne_nil delimiter)
  have hbehind : ∀ s, partsFrom delimiter (padding ++ crlf ++ (raw ++ (crlf ++ delimiter) ++ s)) =
      (do
        let ps ← partsFrom delimiter s
        return p :: ps) := by
    intro s
    rw [partsFrom_of_section (mt (Layout.dashes_prefix_iff _).1 hs) (hline _) (hpart s),
      partOf_eq_ok_iff.2 hp]
    rfl
  constructor
  · intro s
    rw [List.append_assoc, List.append_assoc _ message, hbehind, hw.extended s]
    rfl
  · intro k hk
    by_cases h₁ : k < padding.length + crlf.length
    · refine ⟨.truncated, partsFrom_of_no_line ?_ ((hline _).not_infix_take crlf_ne_nil h₁)⟩
      intro hc
      exact mt (Layout.dashes_prefix_iff _).1 hs (hc.trans (List.take_prefix k _))
    · rw [take_append_of_length_le _ (by rw [List.length_append]; omega)]
      generalize hj : k - (padding ++ crlf).length = j
      by_cases h₂ : j < raw.length + (crlf ++ delimiter).length
      · exact ⟨.noClosing,
          partsFrom_of_no_closing (mt (Layout.dashes_prefix_iff _).1 hs) (hline _)
          ((hpart message).not_infix_take (crlf_append_ne_nil delimiter) h₂)⟩
      · rw [take_append_of_length_le _ (by rw [List.length_append]; omega), hbehind]
        obtain ⟨breach, he⟩ := hw.cut (j - (raw ++ (crlf ++ delimiter)).length) (by
          simp only [List.length_append] at *
          omega)
        exact ⟨breach, by rw [he]; rfl⟩

theorem exists_whole {bs : List UInt8} {ps : List Part} (h : partsFrom delimiter bs = .ok ps) :
    ∃ message rest, bs = message ++ rest ∧ delimiter ++ dashes <:+ delimiter ++ message ∧
      Whole (partsFrom delimiter) message ps := by
  induction ps generalizing bs with
  | nil =>
    rcases partsFrom_cases h with
      ⟨⟨rest, he⟩, -⟩ | ⟨-, _, _, _, _, _, _, -, -, -, -, he⟩
    · exact ⟨dashes, rest, he.symm, List.suffix_rfl, whole_dashes⟩
    · cases he
  | cons p ps ih =>
    rcases partsFrom_cases h with
      ⟨-, he⟩ | ⟨hs, padding, after, raw, behind, q, qs, hl, hd, hq, ha, he⟩
    · cases he
    · cases he
      obtain ⟨message, rest, hb, hm, hw⟩ := ih ha
      refine ⟨_, rest, ?_, ?_, Whole.section hs hl hd hq hw⟩
      · rw [hl.eq, hd.eq, hb]
        simp only [List.append_assoc]
      · apply hm.trans
        refine ⟨delimiter ++ padding ++ crlf ++ raw ++ crlf, ?_⟩
        simp only [List.append_assoc]

theorem Whole.decode {ct b : List Char} {body preamble after message : List UInt8}
    {ps : List Part} (hm : isMultipart ct = true) (hb : boundary ct = .ok b)
    (hf : First (dashes ++ Text.Utf8.encode b) body preamble after)
    (hw : Whole (partsFrom (dashes ++ Text.Utf8.encode b)) message ps) :
    Whole (decode ct) (preamble ++ (dashes ++ Text.Utf8.encode b) ++ message) ps := by
  have hopen : ∀ s, First (dashes ++ Text.Utf8.encode b)
      (preamble ++ (dashes ++ Text.Utf8.encode b) ++ s) preamble s :=
    hf.replace_after (dashes_append_ne_nil _)
  constructor
  · intro s
    rw [List.append_assoc, decode_of_opening hm hb (hopen _)]
    exact hw.extended s
  · intro k hk
    by_cases h₁ : k < preamble.length + (dashes ++ Text.Utf8.encode b).length
    · exact ⟨.noOpening, decode_of_no_opening hm hb
        ((hopen message).not_infix_take (dashes_append_ne_nil _) h₁)⟩
    · rw [take_append_of_length_le _ (by rw [List.length_append]; omega),
        decode_of_opening hm hb (hopen _)]
      apply hw.cut
      simp only [List.length_append] at *
      omega

/-- A body that is accepted has an end, at the dashes behind its last delimiter: nothing behind it
counts, and a body cut off before it is never accepted. -/
theorem decode_ends_at_closing {ct : List Char} {body : List UInt8} {ps : List Part}
    (h : decode ct body = .ok ps) :
    ∃ b n, boundary ct = .ok b ∧ n ≤ body.length ∧
      dashes ++ Text.Utf8.encode b ++ dashes <:+ body.take n ∧
      (∀ s, decode ct (body.take n ++ s) = .ok ps) ∧
      ∀ k < n, ∃ breach, decode ct (body.take k) = .error breach := by
  obtain ⟨hm, b, preamble, after, hb, hf, hd⟩ := decode_cases h
  obtain ⟨message, rest, rfl, hsuffix, hw⟩ := exists_whole hd
  have hw := hw.decode hm hb hf
  have hbody : body = preamble ++ (dashes ++ Text.Utf8.encode b) ++ message ++ rest := by
    rw [hf.eq, List.append_assoc _ message]
  generalize hx : preamble ++ (dashes ++ Text.Utf8.encode b) ++ message = whole at hw hbody
  subst hbody
  refine ⟨b, whole.length, hb, by simp, ?_, ?_, ?_⟩
  · rw [List.take_left, ← hx, List.append_assoc preamble]
    exact hsuffix.trans (List.suffix_append preamble _)
  · intro s
    rw [List.take_left]
    exact hw.extended s
  · intro k hk
    rw [List.take_append_of_le_length (Nat.le_of_lt hk)]
    exact hw.cut k hk

theorem decode_ends_before_epilogue :
    decode "Multipart/Mixed; boundary=\"-\"".toList
        (Text.Utf8.encode "--- \r\na: b\r\n\r\n\r\n-\r\n----- x".toList) =
      .ok [⟨[("a", "b")], [13, 10, 45]⟩] ∧
    ∃ b n, boundary "Multipart/Mixed; boundary=\"-\"".toList = .ok b ∧
      n ≤ (Text.Utf8.encode "--- \r\na: b\r\n\r\n\r\n-\r\n----- x".toList).length ∧
      dashes ++ Text.Utf8.encode b ++ dashes <:+
        (Text.Utf8.encode "--- \r\na: b\r\n\r\n\r\n-\r\n----- x".toList).take n ∧
      (∀ s, decode "Multipart/Mixed; boundary=\"-\"".toList
        ((Text.Utf8.encode "--- \r\na: b\r\n\r\n\r\n-\r\n----- x".toList).take n ++ s) =
          .ok [⟨[("a", "b")], [13, 10, 45]⟩]) ∧
      ∀ k < n, ∃ breach, decode "Multipart/Mixed; boundary=\"-\"".toList
        ((Text.Utf8.encode "--- \r\na: b\r\n\r\n\r\n-\r\n----- x".toList).take k) =
          .error breach := by
  have h : decode "Multipart/Mixed; boundary=\"-\"".toList
      (Text.Utf8.encode "--- \r\na: b\r\n\r\n\r\n-\r\n----- x".toList) =
        .ok [⟨[("a", "b")], [13, 10, 45]⟩] := by
    with_unfolding_all rfl
  exact ⟨h, decode_ends_at_closing h⟩

end RemoteCall.Multipart
