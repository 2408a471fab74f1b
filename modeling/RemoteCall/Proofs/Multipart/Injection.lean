import RemoteCall.Proofs.Multipart.RoundTrip

/-!
What the texts of a form can do to it. The names of fields and files stay inside their line, but a
content type is written as it is. Main statement: each field is received as one part with its own
headers in front, and with these alone and its content exactly if the lines of its content type
behind the first are blank and none is empty.
-/

namespace RemoteCall.Multipart

def headerNames (p : FormPart) : List String :=
  "Content-Disposition" ::
    match p.file with
    | some _ => ["Content-Type"]
    | none => []

variable {p : FormPart} {q : Part}

theorem names_ownHeaders (p : FormPart) : (ownHeaders p).map Prod.fst = headerNames p := by
  rw [ownHeaders, headerNames]
  cases p.file with
  | none => rfl
  | some file => rfl

theorem ownHeaders_in_front (h : IsPart (sectionOf p).raw q) :
    ownHeaders p <+: q.headers ∧ p.body <:+ q.body := by
  obtain ⟨more, spilled, hd⟩ := exists_divided p
  obtain ⟨headers, -, rfl⟩ := (isPart_sectionOf_iff hd).1 h
  exact ⟨List.prefix_append _ _, List.suffix_append _ _⟩

theorem kept_iff_confined (h : IsPart (sectionOf p).raw q) :
    q.headers.map Prod.fst = headerNames p ∧ q.body = p.body ↔ Confined p := by
  constructor
  · rintro ⟨hh, hb⟩
    refine confined_of_isPart h ?_ hb
    have hl := congrArg List.length (hh.trans (names_ownHeaders p).symm)
    rwa [List.length_map, List.length_map] at hl
  · intro hc
    rw [h.unique (isPart_received_iff.2 hc), hc.received_eq]
    exact ⟨names_ownHeaders p, rfl⟩

/-- A form is read back as it is meant exactly if all its content types are confined. Otherwise it
is refused, or each field is received as one part: its own headers are in front and its content at
the end, and nothing is added to either exactly if its content type is confined. -/
theorem decode_encodeForm_iff_confined (stamp count : Nat) (parts : List FormPart) :
    (decode (encodeForm stamp count parts).1.contentType.toList
        (encodeForm stamp count parts).1.body = .ok (parts.map received) ↔
      ∀ p ∈ parts, Confined p) ∧
    ∀ qs, decode (encodeForm stamp count parts).1.contentType.toList
        (encodeForm stamp count parts).1.body = .ok qs →
      List.Forall₂ (fun p q => (ownHeaders p <+: q.headers ∧ p.body <:+ q.body) ∧
        (q.headers.map Prod.fst = headerNames p ∧ q.body = p.body ↔ Confined p)) parts qs := by
  refine ⟨decode_encodeForm_eq_received_iff stamp count, fun qs h => ?_⟩
  exact ((decode_encodeForm_eq_ok_iff stamp count).1 h).imp fun p q hq =>
    ⟨ownHeaders_in_front hq, kept_iff_confined hq⟩

/-- Names that look like the end of a line, of the headers and of the part. -/
def disguised : List FormPart :=
  [.text "a\"\r\nX: y\r\n\r\nb" "c", .ofFile "\r\n\r\n" "\"\r\n\r\n--jutge-1-0--" "t\r\n " [0]]

theorem decode_encodeForm_disguised :
    (∀ p ∈ disguised, Confined p) ∧
      decode (encodeForm 1 0 disguised).1.contentType.toList (encodeForm 1 0 disguised).1.body =
        .ok (disguised.map received) := by
  have hc : ∀ p ∈ disguised, Confined p := by decide
  exact ⟨hc, (decode_encodeForm_iff_confined 1 0 disguised).1.2 hc⟩

/-- A content type that goes on as another header, and one that goes on as content. -/
def intrusive : List FormPart := [.ofFile "f" "a" "t\r\nX: y" [], .ofFile "g" "b" "t\r\n\r\nz" []]

theorem decode_takes_header_and_content_of_type :
    decode (encodeForm 1 0 intrusive).1.contentType.toList (encodeForm 1 0 intrusive).1.body =
      .ok [⟨[("Content-Disposition", "form-data; name=\"f\"; filename=\"a\""),
        ("Content-Type", "t"),
          ("X", "y")], []⟩,
        ⟨[("Content-Disposition", "form-data; name=\"g\"; filename=\"b\""),
          ("Content-Type", "t")],
          [122, 13, 10, 13, 10]⟩] := by
  have hx : HeaderLine "X: y".toList ("X", "y") :=
    ⟨['X'], [' ', 'y'], rfl, by decide, by decide⟩
  have hf : Divided (.ofFile "f" "a" "t\r\nX: y" []) ["X: y".toList] [[]] :=
    ⟨by decide, by decide⟩
  have hg : Divided (.ofFile "g" "b" "t\r\n\r\nz" []) [] [['z'], [], []] :=
    ⟨by decide, by decide⟩
  rw [decode_encodeForm_eq_ok_iff, intrusive]
  exact .cons ((isPart_sectionOf_iff hf).2 ⟨_, .cons hx .nil, rfl⟩)
    (.cons ((isPart_sectionOf_iff hg).2 ⟨_, .nil, rfl⟩) .nil)

end RemoteCall.Multipart
