import Mathlib.Data.List.Forall2
import RemoteCall.Multipart.Decoder
import RemoteCall.Proofs.Outcome
import RemoteCall.Proofs.Text.Pieces

/-!
The grammar of multipart bodies, stated without the decoder: how a body is laid out around its
delimiters, and what a part of it says. Main statement: the decoder accepts exactly the bodies of
this grammar, and there is one layout to each.
-/

namespace RemoteCall.Multipart

open Outcome (bind_eq_ok_iff mapM_eq_ok_iff)
open Text (First Lines trim)

/-! ### Parts -/

def HeaderLine (line : List Char) (header : String × String) : Prop :=
  ∃ name value, line = name ++ ':' :: value ∧ ':' ∉ name ∧
    header = (String.ofList (trim name), String.ofList (trim value))

/-- The headers of a part and its content, and the bytes that they are read from. -/
inductive IsPart : List UInt8 → Part → Prop
  | bare (body : List UInt8) : IsPart (crlf ++ body) ⟨[], body⟩
  | headed {raw head body : List UInt8} {lines : List (List Char)}
      {headers : List (String × String)} :
    ¬ crlf <+: raw → First (crlf ++ crlf) raw head body →
    Lines (Text.Utf8.decodeLossy head) lines →
    List.Forall₂ HeaderLine (lines.filter fun line => trim line ≠ []) headers →
    IsPart raw ⟨headers, body⟩

theorem headerOf_eq_ok_iff {line : List Char} {header : String × String} :
    headerOf line = .ok header ↔ HeaderLine line header := by
  rw [headerOf]
  cases h : Text.splitAt? ':' line with
  | none =>
    refine ⟨fun hc => (nomatch hc), ?_⟩
    rintro ⟨name, value, rfl, hn, -⟩
    rw [Text.splitAt?_append_cons hn] at h
    cases h
  | some found =>
    obtain ⟨name, value⟩ := found
    obtain ⟨rfl, hn⟩ := Text.splitAt?_eq_some_iff.1 h
    constructor
    · rintro hc
      cases hc
      exact ⟨name, value, rfl, hn, rfl⟩
    · rintro ⟨name', value', he, hn', rfl⟩
      rw [he, Text.splitAt?_append_cons hn'] at h
      cases h
      rfl

theorem headersOf_eq_ok_iff {block : List UInt8} {headers : List (String × String)} :
    headersOf block = .ok headers ↔
      ∃ lines, Lines (Text.Utf8.decodeLossy block) lines ∧
        List.Forall₂ HeaderLine (lines.filter fun line => trim line ≠ []) headers := by
  rw [headersOf, mapM_eq_ok_iff]
  simp only [headerOf_eq_ok_iff]
  constructor
  · exact fun h => ⟨_, Text.lines_crlfLines _, h⟩
  · rintro ⟨lines, hl, h⟩
    rwa [hl.crlfLines_eq]

theorem partOf_eq_ok_iff {raw : List UInt8} {p : Part} : partOf raw = .ok p ↔ IsPart raw p := by
  simp only [partOf, bind_eq_ok_iff, Prod.exists]
  constructor
  · rintro ⟨head, body, hs, headers, hh, he⟩
    cases he
    rw [splitPart] at hs
    split at hs
    · next rest ha =>
      cases hs
      obtain rfl := Text.afterStart?_eq_some_iff.1 ha
      cases hh
      exact .bare body
    · next ha =>
      split at hs
      · next block rest hc =>
        cases hs
        obtain ⟨lines, hl, hf⟩ := headersOf_eq_ok_iff.1 hh
        exact .headed (Text.afterStart?_eq_none_iff.1 ha) (Text.cut?_eq_some_iff.1 hc) hl hf
      · cases hs
  · intro h
    cases h with
    | bare body =>
      refine ⟨[], body, by simp [splitPart], [], rfl, rfl⟩
    | headed hn hf hl hh =>
      rename_i head body lines headers
      refine ⟨head, body, ?_, headers, headersOf_eq_ok_iff.2 ⟨lines, hl, hh⟩, rfl⟩
      rw [splitPart, Text.afterStart?_eq_none_iff.2 hn, Text.cut?_eq_some_iff.2 hf]

theorem IsPart.unique {raw : List UInt8} {p q : Part} (h : IsPart raw p) (k : IsPart raw q) :
    p = q := by
  have he := (partOf_eq_ok_iff.2 h).symm.trans (partOf_eq_ok_iff.2 k)
  cases he
  rfl

/-! ### Steps of the decoder -/

variable {delimiter bs : List UInt8}

theorem partsFrom_of_dashes (h : dashes <+: bs) : partsFrom delimiter bs = .ok [] := by
  rw [partsFrom, if_pos (Text.isSome_afterStart?_iff.2 h)]

theorem partsFrom_of_no_line (h : ¬ dashes <+: bs) (hl : ¬ crlf <:+: bs) :
    partsFrom delimiter bs = .error .truncated := by
  rw [partsFrom, if_neg (mt Text.isSome_afterStart?_iff.1 h)]
  split
  · rfl
  · next hc => exact absurd (Text.cut?_eq_none_iff.2 hl) (by simp [hc])

theorem partsFrom_of_no_closing {padding rest : List UInt8} (h : ¬ dashes <+: bs)
    (hl : First crlf bs padding rest) (hn : ¬ crlf ++ delimiter <:+: rest) :
    partsFrom delimiter bs = .error .noClosing := by
  rw [partsFrom, if_neg (mt Text.isSome_afterStart?_iff.1 h)]
  split
  · next hc => exact absurd (Text.cut?_eq_some_iff.2 hl) (by simp [hc])
  · next hc =>
    obtain ⟨rfl, rfl⟩ := (Text.first_of_cut? hc).unique hl
    split
    · rfl
    · next hd => exact absurd (Text.cut?_eq_none_iff.2 hn) (by simp [hd])

theorem partsFrom_of_section {padding rest raw after : List UInt8} (h : ¬ dashes <+: bs)
    (hl : First crlf bs padding rest) (hd : First (crlf ++ delimiter) rest raw after) :
    partsFrom delimiter bs = (do
      let p ← partOf raw
      let ps ← partsFrom delimiter after
      return p :: ps) := by
  rw [partsFrom, if_neg (mt Text.isSome_afterStart?_iff.1 h)]
  split
  · next hc => exact absurd (Text.cut?_eq_some_iff.2 hl) (by simp [hc])
  · next hc =>
    obtain ⟨rfl, rfl⟩ := (Text.first_of_cut? hc).unique hl
    split
    · next hd' => exact absurd (Text.cut?_eq_some_iff.2 hd) (by simp [hd'])
    · next hd' =>
      obtain ⟨rfl, rfl⟩ := (Text.first_of_cut? hd').unique hd
      rfl

theorem partsFrom_cases {ps : List Part} (h : partsFrom delimiter bs = .ok ps) :
    dashes <+: bs ∧ ps = [] ∨
      ¬ dashes <+: bs ∧ ∃ padding rest raw after p qs, First crlf bs padding rest ∧
        First (crlf ++ delimiter) rest raw after ∧ IsPart raw p ∧
        partsFrom delimiter after = .ok qs ∧ ps = p :: qs := by
  by_cases hs : dashes <+: bs
  · rw [partsFrom_of_dashes hs] at h
    cases h
    exact .inl ⟨hs, rfl⟩
  · refine .inr ⟨hs, ?_⟩
    cases hl : Text.cut? crlf bs with
    | none =>
      rw [partsFrom_of_no_line hs (Text.cut?_eq_none_iff.1 hl)] at h
      cases h
    | some found =>
      obtain ⟨padding, rest⟩ := found
      have hf := Text.first_of_cut? hl
      cases hd : Text.cut? (crlf ++ delimiter) rest with
      | none =>
        rw [partsFrom_of_no_closing hs hf (Text.cut?_eq_none_iff.1 hd)] at h
        cases h
      | some found =>
        obtain ⟨raw, after⟩ := found
        have hg := Text.first_of_cut? hd
        rw [partsFrom_of_section hs hf hg] at h
        simp only [bind_eq_ok_iff] at h
        obtain ⟨p, hp, qs, hq, he⟩ := h
        cases he
        exact ⟨padding, rest, raw, after, p, qs, hf, hg, partOf_eq_ok_iff.1 hp, hq, rfl⟩

theorem isMultipart_iff {ct : List Char} :
    isMultipart ct = true ↔ "multipart/".toList <+: mediaType ct :=
  List.isPrefixOf_iff_prefix

theorem decode_of_no_opening {ct b : List Char} {body : List UInt8} (hm : isMultipart ct = true)
    (hb : boundary ct = .ok b) (hn : ¬ dashes ++ Text.Utf8.encode b <:+: body) :
    decode ct body = .error .noOpening := by
  rw [decode, if_pos hm, hb]
  simp only [bind, Except.bind, Text.cut?_eq_none_iff.2 hn]

theorem decode_of_opening {ct b : List Char} {body preamble after : List UInt8}
    (hm : isMultipart ct = true) (hb : boundary ct = .ok b)
    (hf : First (dashes ++ Text.Utf8.encode b) body preamble after) :
    decode ct body = partsFrom (dashes ++ Text.Utf8.encode b) after := by
  rw [decode, if_pos hm, hb]
  simp only [bind, Except.bind, Text.cut?_eq_some_iff.2 hf]

theorem decode_cases {ct : List Char} {body : List UInt8} {ps : List Part}
    (h : decode ct body = .ok ps) :
    isMultipart ct = true ∧ ∃ b preamble after, boundary ct = .ok b ∧
      First (dashes ++ Text.Utf8.encode b) body preamble after ∧
      partsFrom (dashes ++ Text.Utf8.encode b) after = .ok ps := by
  by_cases hm : isMultipart ct = true
  · refine ⟨hm, ?_⟩
    cases hb : boundary ct with
    | error e =>
      rw [decode, if_pos hm, hb] at h
      cases h
    | ok b =>
      cases hc : Text.cut? (dashes ++ Text.Utf8.encode b) body with
      | none =>
        rw [decode_of_no_opening hm hb (Text.cut?_eq_none_iff.1 hc)] at h
        cases h
      | some found =>
        obtain ⟨preamble, after⟩ := found
        have hf := Text.first_of_cut? hc
        rw [decode_of_opening hm hb hf] at h
        exact ⟨b, preamble, after, rfl, hf, h⟩
  · rw [decode, if_neg hm] at h
    cases h

/-! ### Layouts -/

structure Section where
  padding : List UInt8
  raw : List UInt8

structure Layout where
  preamble : List UInt8
  sections : List Section
  epilogue : List UInt8

namespace Layout

/-- What follows a delimiter. The last one has dashes behind it. -/
def behind (delimiter epilogue : List UInt8) : List Section → List UInt8
  | [] => dashes ++ epilogue
  | s :: ss => s.padding ++ crlf ++ (s.raw ++ (crlf ++ delimiter) ++ behind delimiter epilogue ss)

def bytes (delimiter : List UInt8) (l : Layout) : List UInt8 :=
  l.preamble ++ delimiter ++ behind delimiter l.epilogue l.sections

/-- Each line of a delimiter and each part ends where it first can, and no delimiter but the last
has dashes behind it. -/
inductive Placed (delimiter epilogue : List UInt8) : List Section → Prop
  | nil : Placed delimiter epilogue []
  | cons (s : Section) (ss : List Section) :
    ¬ dashes <+: s.padding ++ crlf →
    First crlf (behind delimiter epilogue (s :: ss)) s.padding
      (s.raw ++ (crlf ++ delimiter) ++ behind delimiter epilogue ss) →
    First (crlf ++ delimiter) (s.raw ++ (crlf ++ delimiter) ++ behind delimiter epilogue ss) s.raw
      (behind delimiter epilogue ss) →
    Placed delimiter epilogue ss → Placed delimiter epilogue (s :: ss)

/-- The body with this layout has it by reading from the front, and its parts are `ps`. -/
structure Reads (delimiter : List UInt8) (l : Layout) (ps : List Part) : Prop where
  opening : First delimiter (l.bytes delimiter) l.preamble (behind delimiter l.epilogue l.sections)
  placed : Placed delimiter l.epilogue l.sections
  parts : List.Forall₂ (fun s p => IsPart s.raw p) l.sections ps

variable {epilogue : List UInt8}

theorem dashes_prefix_iff {padding : List UInt8} (rest : List UInt8) :
    dashes <+: padding ++ crlf ++ rest ↔ dashes <+: padding ++ crlf := by
  constructor
  · intro h
    apply List.prefix_of_prefix_length_le h (List.prefix_append _ rest)
    simp [dashes, crlf]
  · exact fun h => h.trans (List.prefix_append _ rest)

theorem partsFrom_behind {ss : List Section} {ps : List Part} (h : Placed delimiter epilogue ss)
    (hp : List.Forall₂ (fun s p => IsPart s.raw p) ss ps) :
    partsFrom delimiter (behind delimiter epilogue ss) = .ok ps := by
  induction h generalizing ps with
  | nil =>
    cases hp
    exact partsFrom_of_dashes (List.prefix_append dashes epilogue)
  | cons s ss hs hl hd _ ih =>
    cases hp with
    | cons hq hqs =>
      have hn : ¬ dashes <+: behind delimiter epilogue (s :: ss) := mt (dashes_prefix_iff _).1 hs
      rw [partsFrom_of_section hn hl hd, partOf_eq_ok_iff.2 hq, ih hqs]
      rfl

theorem exists_placed {ps : List Part} (h : partsFrom delimiter bs = .ok ps) :
    ∃ epilogue ss, bs = behind delimiter epilogue ss ∧ Placed delimiter epilogue ss ∧
      List.Forall₂ (fun s p => IsPart s.raw p) ss ps := by
  induction ps generalizing bs with
  | nil =>
    rcases partsFrom_cases h with
      ⟨⟨epilogue, he⟩, -⟩ | ⟨-, _, _, _, _, _, _, -, -, -, -, he⟩
    · exact ⟨epilogue, [], he.symm, .nil, .nil⟩
    · cases he
  | cons p ps ih =>
    rcases partsFrom_cases h with
      ⟨-, he⟩ | ⟨hs, padding, rest, raw, after, q, qs, hl, hd, hq, ha, he⟩
    · cases he
    · cases he
      obtain ⟨epilogue, ss, rfl, hp, hf⟩ := ih ha
      obtain rfl := hd.eq
      obtain rfl := hl.eq
      refine ⟨epilogue, ⟨padding, raw⟩ :: ss, rfl, ?_, .cons hq hf⟩
      exact .cons _ _ (mt (dashes_prefix_iff _).2 hs) hl hd hp

/-- The sections behind a delimiter, and what follows the last, are where they can first be. -/
theorem Placed.unique {e e' : List UInt8} {ss ss' : List Section} (h : Placed delimiter e ss)
    (h' : Placed delimiter e' ss') (he : behind delimiter e ss = behind delimiter e' ss') :
    ss = ss' ∧ e = e' := by
  induction h generalizing ss' with
  | nil =>
    cases h' with
    | nil => exact ⟨rfl, (List.append_right_inj dashes).1 he⟩
    | cons s' ss' hs' =>
      rw [behind, behind] at he
      exact absurd ((dashes_prefix_iff _).1 ⟨e, he⟩) hs'
  | cons s ss hs hl hd _ ih =>
    cases h' with
    | nil =>
      rw [behind, behind] at he
      exact absurd ((dashes_prefix_iff _).1 ⟨e', he.symm⟩) hs
    | cons s' ss' _ hl' hd' hp' =>
      obtain ⟨hpad, hrest⟩ := hl.unique (he ▸ hl')
      obtain ⟨hraw, hbehind⟩ := hd.unique (hrest ▸ hd')
      obtain ⟨rfl, rfl⟩ := ih hp' hbehind
      cases s
      cases s'
      cases hpad
      cases hraw
      exact ⟨rfl, rfl⟩

theorem Placed.partsFrom_eq_ok_iff {ss : List Section} {ps : List Part}
    (h : Placed delimiter epilogue ss) :
    partsFrom delimiter (behind delimiter epilogue ss) = .ok ps ↔
      List.Forall₂ (fun s p => IsPart s.raw p) ss ps := by
  refine ⟨fun hp => ?_, partsFrom_behind h⟩
  obtain ⟨_, _, he, h', hf⟩ := exists_placed hp
  obtain ⟨rfl, rfl⟩ := h.unique h' he
  exact hf

theorem Reads.unique {l l' : Layout} {ps ps' : List Part} (h : Reads delimiter l ps)
    (h' : Reads delimiter l' ps') (he : l.bytes delimiter = l'.bytes delimiter) :
    l = l' ∧ ps = ps' := by
  obtain ⟨hpre, hbehind⟩ := h.opening.unique (he ▸ h'.opening)
  obtain ⟨hss, hepi⟩ := h.placed.unique h'.placed hbehind
  cases l
  cases l'
  cases hpre
  cases hss
  cases hepi
  refine ⟨rfl, ?_⟩
  have hok := (partsFrom_behind h.placed h.parts).symm.trans (partsFrom_behind h'.placed h'.parts)
  cases hok
  rfl

end Layout

/-- A body of a content type is laid out as `l`, and says `ps`. -/
structure Says (ct : List Char) (body : List UInt8) (l : Layout) (ps : List Part) : Prop where
  multipart : "multipart/".toList <+: mediaType ct
  reads : ∃ b, boundary ct = .ok b ∧ body = l.bytes (dashes ++ Text.Utf8.encode b) ∧
    l.Reads (dashes ++ Text.Utf8.encode b) ps

theorem exists_layout {ct : List Char} {body : List UInt8} {ps : List Part}
    (h : decode ct body = .ok ps) : ∃ l, Says ct body l ps := by
  obtain ⟨hm, b, preamble, after, hb, hf, hd⟩ := decode_cases h
  obtain ⟨epilogue, ss, rfl, hp, hq⟩ := Layout.exists_placed hd
  obtain rfl := hf.eq
  exact ⟨⟨preamble, ss, epilogue⟩, isMultipart_iff.1 hm, b, hb, rfl, hf, hp, hq⟩

theorem Says.decode_eq {ct : List Char} {body : List UInt8} {l : Layout} {ps : List Part}
    (h : Says ct body l ps) : decode ct body = .ok ps := by
  obtain ⟨hm, b, hb, rfl, hr⟩ := h
  rw [decode_of_opening (isMultipart_iff.2 hm) hb hr.opening]
  exact Layout.partsFrom_behind hr.placed hr.parts

theorem Says.unique {ct : List Char} {body : List UInt8} {l l' : Layout} {ps ps' : List Part}
    (h : Says ct body l ps) (h' : Says ct body l' ps') : l = l' ∧ ps = ps' := by
  obtain ⟨-, b, hb, he, hr⟩ := h
  obtain ⟨-, b', hb', he', hr'⟩ := h'
  cases hb.symm.trans hb'
  exact hr.unique hr' (he.symm.trans he')

/-- The decoder accepts exactly the grammar, in one way each, and what it does not accept violates
the contract. -/
theorem decode_accepts_grammar (ct : List Char) (body : List UInt8) :
    (∀ ps, decode ct body = .ok ps ↔ ∃ l, Says ct body l ps) ∧
    (∀ l l' ps ps', Says ct body l ps → Says ct body l' ps' → l = l' ∧ ps = ps') ∧
    ((¬ ∃ l ps, Says ct body l ps) → ∃ breach, decode ct body = .error breach) := by
  refine ⟨fun ps => ⟨exists_layout, ?_⟩, fun l l' ps ps' => Says.unique, fun h => ?_⟩
  · rintro ⟨l, h⟩
    exact h.decode_eq
  · cases hd : decode ct body with
    | error breach => exact ⟨breach, rfl⟩
    | ok ps =>
      obtain ⟨l, hl⟩ := exists_layout hd
      exact absurd ⟨l, ps, hl⟩ h

/-- One part without headers, and nothing around the delimiters. -/
def bareLayout : Layout := ⟨[], [⟨[], [13, 10, 120]⟩], []⟩

theorem decode_accepts_bareLayout :
    Says "Multipart/x; boundary=b".toList
        [45, 45, 98, 13, 10, 13, 10, 120, 13, 10, 45, 45, 98, 45, 45] bareLayout
          [⟨[], [120]⟩] ∧
      decode "Multipart/x; boundary=b".toList
        [45, 45, 98, 13, 10, 13, 10, 120, 13, 10, 45, 45, 98, 45, 45] = .ok [⟨[], [120]⟩] ∧
      (¬ ∃ l ps, Says "Multipart/x; boundary=b".toList [45, 45, 98] l ps) ∧
      ∃ breach, decode "Multipart/x; boundary=b".toList [45, 45, 98] = .error breach := by
  have hs : Says "Multipart/x; boundary=b".toList
      [45, 45, 98, 13, 10, 13, 10, 120, 13, 10, 45, 45, 98, 45, 45] bareLayout
        [⟨[], [120]⟩] := by
    refine ⟨by decide, ['b'], rfl, rfl, First.nil_before _ _, ?_, .cons (.bare [120]) .nil⟩
    refine .cons _ _ (by decide) (First.nil_before _ _) ?_ .nil
    exact Text.cut?_eq_some_iff.1 (by decide)
  have hn : ¬ ∃ l ps, Says "Multipart/x; boundary=b".toList [45, 45, 98] l ps := by
    rintro ⟨l, ps, h⟩
    have hd : decode "Multipart/x; boundary=b".toList [45, 45, 98] = .error .truncated := by
      with_unfolding_all rfl
    cases hd.symm.trans h.decode_eq
  have h := decode_accepts_grammar "Multipart/x; boundary=b".toList
  exact ⟨hs, ((h _).1 _).2 ⟨_, hs⟩, hn, (h _).2.2 hn⟩

end RemoteCall.Multipart
