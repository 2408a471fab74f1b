import RemoteCall.Proofs.Multipart.Grammar
import RemoteCall.Proofs.Text.Utf8
import RemoteCall.Multipart.Form

/-!
The headers of fields, as they are written and as they are read. The names of fields and files stay
inside their line, but a content type is written as it is. Main statement: a field is received with
its own headers, those that the further lines of its content type make up to an empty one, and what
is left of them in front of its content.
-/

namespace RemoteCall.Multipart

open Text (First Lines crlfLines infix_of_infix_append intercalate_append lineEnd lines_crlfLines
  trim)
open Text.Utf8 (encode encode_append infix_of_encode)

/-- The part that a field is received as. -/
def received (p : FormPart) : Part where
  headers :=
    match p.file with
    | some (filename, type) =>
      [("Content-Disposition",
          "form-data; name=\"" ++ String.ofList (quote p.name) ++ "\"" ++
            ("; filename=\"" ++ String.ofList (quote filename) ++ "\"")),
        ("Content-Type", String.ofList (trim type.toList))]
    | none =>
      [("Content-Disposition", "form-data; name=\"" ++ String.ofList (quote p.name) ++ "\"")]
  body := p.body

/-- The content type of a file has no end of line in it. -/
def TypeOnLine (p : FormPart) : Prop :=
  ∀ filename type, p.file = some (filename, type) → ¬ lineEnd <:+: type.toList

/-- The lines of a content type behind the first. -/
def furtherLines (p : FormPart) : List (List Char) :=
  match p.file with
  | some (_, type) => (crlfLines type.toList).tail
  | none => []

/-- The lines of a content type behind the first are blank and none is empty, so that nothing of it
is taken for a header or for content. -/
def Confined (p : FormPart) : Prop := ∀ line ∈ furtherLines p, line ≠ [] ∧ trim line = []

instance (p : FormPart) : Decidable (Confined p) :=
  inferInstanceAs (Decidable (∀ line ∈ furtherLines p, line ≠ [] ∧ trim line = []))

/-! ### What is written in front -/

theorem ofList_quoted (before name : String) :
    String.ofList (before.toList ++ quote name ++ ['"']) =
      before ++ String.ofList (quote name) ++ "\"" := by
  rw [String.ofList_append, String.ofList_append, String.ofList_toList]

theorem ofList_disposition_text (name : String) (body : List UInt8) :
    String.ofList (disposition ⟨name, none, body⟩) =
      "form-data; name=\"" ++ String.ofList (quote name) ++ "\"" := by
  rw [← ofList_quoted "form-data; name=\""]
  exact congrArg String.ofList (List.append_nil _)

theorem ofList_disposition_file (name filename type : String) (body : List UInt8) :
    String.ofList (disposition ⟨name, some (filename, type), body⟩) =
      "form-data; name=\"" ++ String.ofList (quote name) ++ "\"" ++
        ("; filename=\"" ++ String.ofList (quote filename) ++ "\"") := by
  rw [← ofList_quoted "form-data; name=\"", ← ofList_quoted "; filename=\"",
    ← String.ofList_append]
  rfl

/-- The header written in front is received first, and a content type after it. -/
theorem received_headers (p : FormPart) : (received p).headers =
    ("Content-Disposition", String.ofList (disposition p)) ::
      match p.file with
      | some (_, type) => [("Content-Type", String.ofList (trim type.toList))]
      | none => [] := by
  obtain ⟨name, file, body⟩ := p
  cases file with
  | none =>
    rw [ofList_disposition_text]
    rfl
  | some file =>
    rw [ofList_disposition_file]
    rfl

/-! ### Quoted texts -/

theorem quoteChar_cases (c : Char) :
    c = '"' ∧ quoteChar c = ['%', '2', '2'] ∨
      (c = '\r' ∨ c = '\n') ∧ quoteChar c = [' '] ∨
      ¬ (c = '"' ∨ c = '\r' ∨ c = '\n') ∧ quoteChar c = [c] := by
  by_cases hq : c = '"'
  · exact .inl ⟨hq, if_pos hq⟩
  · by_cases hn : c = '\r' ∨ c = '\n'
    · exact .inr (.inl ⟨hn, by rw [quoteChar, if_neg hq, if_pos hn]⟩)
    · exact .inr (.inr ⟨not_or.2 ⟨hq, hn⟩, by rw [quoteChar, if_neg hq, if_neg hn]⟩)

/-- A character of a quoted text stands for itself, or is one of those written for another. -/
theorem mem_quote {c : Char} {s : String} (h : c ∈ quote s) :
    c ∈ ['%', '2', ' '] ∨ c ∈ s.toList ∧ ¬ (c = '"' ∨ c = '\r' ∨ c = '\n') := by
  obtain ⟨d, hm, hd⟩ := List.mem_flatMap.1 h
  rcases quoteChar_cases d with ⟨-, hq⟩ | ⟨-, hq⟩ | ⟨hn, hq⟩
  · have hs : ['%', '2', '2'] ⊆ ['%', '2', ' '] := by simp
    exact .inl (hs (hq ▸ hd))
  · have hs : [' '] ⊆ ['%', '2', ' '] := by simp
    exact .inl (hs (hq ▸ hd))
  · rw [hq, List.mem_singleton] at hd
    exact .inr ⟨hd ▸ hm, hd ▸ hn⟩

theorem not_mem_quote {c : Char} (hc : c = '"' ∨ c = '\r' ∨ c = '\n') (s : String) :
    c ∉ quote s := by
  intro h
  cases mem_quote h with
  | inl h => rcases hc with rfl | rfl | rfl <;> simp at h
  | inr h => exact h.2 hc

-- The equations that are made for these definitions would take their literals apart.
theorem headerBlock_eq (p : FormPart) : headerBlock p =
    "Content-Disposition: ".toList ++ disposition p ++
      match p.file with
      | some (_, type) => "\r\nContent-Type: ".toList ++ type.toList
      | none => [] :=
  rfl

theorem disposition_eq (p : FormPart) : disposition p =
    "form-data; name=\"".toList ++ quote p.name ++ ['"'] ++
      match p.file with
      | some (filename, _) => "; filename=\"".toList ++ quote filename ++ ['"']
      | none => [] :=
  rfl

theorem not_mem_disposition {c : Char} (hc : c = '\r' ∨ c = '\n') (p : FormPart) :
    c ∉ disposition p := by
  have hq := not_mem_quote (.inr hc)
  rw [disposition_eq]
  cases p.file with
  | none => rcases hc with rfl | rfl <;> simp [hq]
  | some file => rcases hc with rfl | rfl <;> simp [hq]

theorem getLast?_disposition (p : FormPart) : (disposition p).getLast? = some '"' := by
  rw [disposition_eq]
  cases p.file with
  | none =>
    rw [List.append_nil]
    exact List.getLast?_concat
  | some file =>
    rw [← List.append_assoc]
    exact List.getLast?_concat

theorem trim_disposition (p : FormPart) : trim (' ' :: disposition p) = disposition p := by
  rw [trim, Text.dropBothWhile_cons_of_pos (by decide)]
  apply Text.dropBothWhile_eq_self
  · intro c hc
    cases hc
    decide
  · intro c hc
    rw [getLast?_disposition] at hc
    cases hc
    decide

def headerLine (name : String) (value : List Char) : List Char :=
  name.toList ++ ':' :: ' ' :: value

theorem not_infix_headerLine {name : String} {value : List Char} (hn : '\r' ∉ name.toList)
    (hv : ¬ lineEnd <:+: value) : ¬ lineEnd <:+: headerLine name value := by
  have hs : '\r' ∉ name.toList ++ [':', ' '] := by simp [hn]
  intro h
  exact hv (infix_of_infix_append hs (by simpa [headerLine] using h))

theorem trim_headerLine_ne_nil (name : String) (value : List Char) :
    trim (headerLine name value) ≠ [] := by
  have hm : ':' ∈ headerLine name value := List.mem_append_right _ List.mem_cons_self
  exact List.ne_nil_of_mem (Text.mem_dropBothWhile (p := Text.isBlank) (by decide) hm)

theorem isHeader_headerLine (name : String) (hc : ':' ∉ name.toList)
    (ht : trim name.toList = name.toList) (value : List Char) :
    HeaderLine (headerLine name value) (name, String.ofList (trim (' ' :: value))) :=
  ⟨name.toList, ' ' :: value, rfl, hc, by rw [ht, String.ofList_toList]⟩

/-- The lines of the headers that a field is meant to have. -/
def ownLines (p : FormPart) : List (List Char) :=
  headerLine "Content-Disposition" (disposition p) ::
    match p.file with
    | some (_, type) => [headerLine "Content-Type" ((crlfLines type.toList).headD [])]
    | none => []

def ownHeaders (p : FormPart) : List (String × String) :=
  ("Content-Disposition", String.ofList (disposition p)) ::
    match p.file with
    | some (_, type) =>
      [("Content-Type", String.ofList (trim ((crlfLines type.toList).headD [])))]
    | none => []

variable {p : FormPart} {q : Part}

theorem intercalate_headerLine (name : String) (first : List Char) (further : List (List Char)) :
    lineEnd.intercalate (headerLine name first :: further) =
      headerLine name (lineEnd.intercalate (first :: further)) := by
  cases further with
  | nil => simp only [List.intercalate_singleton]
  | cons next further => simp [headerLine, List.intercalate_cons_cons]

theorem lines_headers (p : FormPart) : Lines (headerBlock p) (ownLines p ++ furtherLines p) := by
  have hd : ¬ lineEnd <:+: headerLine "Content-Disposition" (disposition p) := by
    apply not_infix_headerLine (by decide)
    exact Text.not_lineEnd_infix_of_not_mem (not_mem_disposition (.inl rfl) p)
  rw [headerBlock_eq, ownLines, furtherLines]
  cases p.file with
  | none => exact ⟨List.cons_ne_nil _ _, by simpa using hd, by simp [headerLine]⟩
  | some file =>
    have hl := lines_crlfLines file.2.toList
    obtain ⟨first, further, hf⟩ := List.exists_cons_of_ne_nil hl.ne_nil
    rw [hf] at hl
    obtain ⟨ht, hu⟩ := List.forall_mem_cons.1 hl.unbroken
    simp only [hf, List.headD_cons, List.tail_cons, List.cons_append, List.nil_append]
    refine ⟨List.cons_ne_nil _ _, ?_, ?_⟩
    · simp only [List.forall_mem_cons]
      exact ⟨hd, not_infix_headerLine (by decide) ht, hu⟩
    · rw [List.intercalate_cons_cons, intercalate_headerLine, hl.joined]
      simp [headerLine]

theorem trim_ne_nil_of_mem_ownLines {line : List Char} (h : line ∈ ownLines p) :
    trim line ≠ [] := by
  rw [ownLines] at h
  cases hf : p.file with
  | none =>
    rw [hf, List.mem_singleton] at h
    exact h ▸ trim_headerLine_ne_nil _ _
  | some file =>
    rw [hf, List.mem_pair] at h
    rcases h with rfl | rfl
    · exact trim_headerLine_ne_nil _ _
    · exact trim_headerLine_ne_nil _ _

theorem forall₂_ownLines (p : FormPart) :
    List.Forall₂ HeaderLine (ownLines p) (ownHeaders p) := by
  have hd := isHeader_headerLine "Content-Disposition" (by decide) (by decide) (disposition p)
  rw [trim_disposition] at hd
  rw [ownLines, ownHeaders]
  cases p.file with
  | none => exact .cons hd .nil
  | some file =>
    have ht := isHeader_headerLine "Content-Type" (by decide) (by decide)
      ((crlfLines file.2.toList).headD [])
    rw [trim, Text.dropBothWhile_cons_of_pos (by decide)] at ht
    exact .cons hd (.cons ht .nil)

theorem filter_ownLines_append (p : FormPart) (lines : List (List Char)) :
    (ownLines p ++ lines).filter (fun line => trim line ≠ []) =
      ownLines p ++ lines.filter fun line => trim line ≠ [] := by
  rw [List.filter_append, List.append_left_inj, List.filter_eq_self]
  exact fun line hm => decide_eq_true (trim_ne_nil_of_mem_ownLines hm)

theorem rightUnique_headerLine : Relator.RightUnique HeaderLine := by
  intro line header header' h h'
  exact Except.ok.inj ((headerOf_eq_ok_iff.2 h).symm.trans (headerOf_eq_ok_iff.2 h'))

theorem forall₂_ownLines_append_iff {lines : List (List Char)}
    {headers : List (String × String)} :
    List.Forall₂ HeaderLine (ownLines p ++ lines) headers ↔
      ∃ more, List.Forall₂ HeaderLine lines more ∧ headers = ownHeaders p ++ more := by
  constructor
  · intro h
    have ho : List.Forall₂ HeaderLine (ownLines p) (headers.take (ownLines p).length) := by
      simpa using List.forall₂_take (ownLines p).length h
    have hm : List.Forall₂ HeaderLine lines (headers.drop (ownLines p).length) := by
      simpa using List.forall₂_drop (ownLines p).length h
    refine ⟨_, hm, ?_⟩
    rw [rightUnique_headerLine.forall₂ (forall₂_ownLines p) ho, List.take_append_drop]
  · rintro ⟨more, h, rfl⟩
    exact List.rel_append (forall₂_ownLines p) h

/-! ### The end of the headers -/

/-- What stands between the delimiter in front of a field and the next. -/
def sectionOf (p : FormPart) : Section where
  padding := []
  raw := encode (headerBlock p) ++ (crlf ++ crlf) ++ p.body

theorem first_crlf {line : List Char} (h : ¬ lineEnd <:+: line) (rest : List UInt8) :
    First crlf (encode line ++ crlf ++ rest) (encode line) rest := by
  refine (First.iff_not_occurring (List.cons_ne_nil _ _)).2 ⟨rfl, fun hi => ?_⟩
  rcases List.infix_concat_iff.1 hi with ⟨t, ht⟩ | hi
  · have hl := congrArg List.getLast? ht
    simp at hl
  · have ha : ∀ c ∈ lineEnd, c.toNat < 0x80 := by simp [lineEnd]
    exact h (infix_of_encode ha hi)

theorem first_crlf_crlf {line : List Char} (h : ¬ lineEnd <:+: line) (body : List UInt8) :
    First (crlf ++ crlf) (encode line ++ (crlf ++ crlf) ++ body) (encode line) body := by
  have hf := (first_crlf h (crlf ++ body)).append rfl
  simpa only [List.append_assoc] using hf

theorem exists_encode_intercalate (line : List Char) (lines : List (List Char))
    (rest : List UInt8) : ∃ more, encode (lineEnd.intercalate (line :: lines)) ++ (crlf ++ rest) =
      encode line ++ crlf ++ more := by
  cases lines with
  | nil => exact ⟨rest, by rw [List.intercalate_singleton, List.append_assoc]⟩
  | cons next lines =>
    refine ⟨encode (lineEnd.intercalate (next :: lines)) ++ (crlf ++ rest), ?_⟩
    rw [List.intercalate_cons_cons, encode_append, encode_append]
    simp only [List.append_assoc]
    rfl

/-- Behind a line, headers end where they would without it, unless an empty line follows. -/
theorem first_crlf_crlf_behind {line rest before after : List UInt8}
    (hl : First crlf (line ++ crlf ++ rest) line rest) (hn : ¬ crlf <+: rest)
    (h : First (crlf ++ crlf) rest before after) :
    First (crlf ++ crlf) (line ++ crlf ++ rest) (line ++ crlf ++ before) after := by
  refine ⟨by rw [h.eq]; simp only [List.append_assoc], fun b a he => ?_⟩
  have hle := hl.le b (crlf ++ a) (by rw [he]; simp only [List.append_assoc])
  simp only [List.append_assoc] at he
  obtain ⟨c, rfl⟩ : line <+: b :=
    List.prefix_of_prefix_length_le ⟨_, rfl⟩ ⟨_, he.symm⟩ hle
  rw [List.append_assoc, List.append_right_inj] at he
  obtain _ | ⟨x, _ | ⟨y, c⟩⟩ := c
  · exact absurd ⟨a, ((List.append_right_inj crlf).1 he).symm⟩ hn
  · cases he
  · have hc : rest = c ++ (crlf ++ crlf) ++ a := by
      cases he
      simp only [List.append_assoc]
      rfl
    have hle := h.le c a hc
    simp only [List.length_append, List.length_cons, crlf, List.length_nil]
    omega

/-- The headers end behind the first lines if none of them is empty. -/
theorem first_emptyLine {lines : List (List Char)} (hne : lines ≠ [])
    (hu : ∀ line ∈ lines, ¬ lineEnd <:+: line) (he : [] ∉ lines) (rest : List UInt8) :
    First (crlf ++ crlf) (encode (lineEnd.intercalate lines) ++ (crlf ++ crlf) ++ rest)
      (encode (lineEnd.intercalate lines)) rest := by
  induction lines with
  | nil => exact absurd rfl hne
  | cons line lines ih =>
    obtain ⟨hl, hu⟩ := List.forall_mem_cons.1 hu
    cases lines with
    | nil => exact List.intercalate_singleton ▸ first_crlf_crlf hl rest
    | cons next lines =>
      have hf := ih (List.cons_ne_nil next lines) hu fun hm => he (List.mem_cons_of_mem line hm)
      have hj : encode (lineEnd.intercalate (line :: next :: lines)) =
          encode line ++ crlf ++ encode (lineEnd.intercalate (next :: lines)) := by
        rw [List.intercalate_cons_cons, encode_append, encode_append]
        rfl
      rw [List.append_assoc] at hf
      rw [hj, List.append_assoc, List.append_assoc _ _ (crlf ++ crlf ++ rest)]
      refine first_crlf_crlf_behind (first_crlf hl _) (fun hp => he ?_) hf
      -- An end of a line in front of the next line would be its own.
      obtain ⟨behind, hb⟩ := hp
      obtain ⟨more, hm⟩ := exists_encode_intercalate next lines (crlf ++ rest)
      have hnext := first_crlf (hu next List.mem_cons_self) more
      rw [List.append_assoc] at hb
      rw [← hm, ← hb] at hnext
      have hnil := ((First.nil_before crlf behind).unique hnext).1
      rw [← Text.Utf8.decodeLossy_encode next, ← hnil]
      exact List.mem_cons_of_mem line List.mem_cons_self

/-- The further lines of a field up to an empty one, which ends its headers, and those behind it. -/
def Divided (p : FormPart) (more spilled : List (List Char)) : Prop :=
  furtherLines p ++ [[], []] = more ++ [] :: spilled ∧ [] ∉ more

theorem exists_divided (p : FormPart) : ∃ more spilled, Divided p more spilled :=
  List.eq_append_cons_of_mem (List.mem_append_right (furtherLines p) List.mem_cons_self)

namespace Divided

variable {more spilled : List (List Char)}

theorem spilled_ne_nil (h : Divided p more spilled) : spilled ≠ [] := by
  rintro rfl
  obtain ⟨he, hn⟩ := h
  have hc : furtherLines p ++ [[]] ++ [[]] = more ++ [[]] := by
    rw [← he, List.append_assoc]
    rfl
  have hm : furtherLines p ++ [[]] = more := List.append_cancel_right hc
  exact hn (hm ▸ List.mem_append_right _ List.mem_cons_self)

theorem mem_furtherLines (h : Divided p more spilled) {line : List Char} (hm : line ∈ more) :
    line ∈ furtherLines p := by
  have hf : line ∈ furtherLines p ++ [[], []] := h.1 ▸ List.mem_append_left _ hm
  refine (List.mem_append.1 hf).resolve_right fun he => h.2 ?_
  have hnil : line = [] := by simpa using he
  exact hnil ▸ hm

theorem nil_not_mem (h : Divided p more spilled) : [] ∉ ownLines p ++ more := by
  intro hm
  refine (List.mem_append.1 hm).elim (fun ho => ?_) h.2
  exact trim_ne_nil_of_mem_ownLines ho rfl

theorem lines (h : Divided p more spilled) :
    Lines (lineEnd.intercalate (ownLines p ++ more)) (ownLines p ++ more) := by
  refine ⟨List.cons_ne_nil _ _, fun line hm => (lines_headers p).unbroken line ?_, rfl⟩
  rw [List.mem_append] at hm ⊢
  exact hm.imp_right h.mem_furtherLines

theorem headerBlock_append (h : Divided p more spilled) :
    headerBlock p ++ lineEnd ++ lineEnd =
      lineEnd.intercalate (ownLines p ++ more) ++ lineEnd ++
        (lineEnd ++ lineEnd.intercalate spilled) := by
  calc
    _ = lineEnd.intercalate (ownLines p ++ furtherLines p ++ [[], []]) := by
      rw [intercalate_append lineEnd (lines_headers p).ne_nil (List.cons_ne_nil _ _),
        (lines_headers p).joined]
      rfl
    _ = lineEnd.intercalate (ownLines p ++ more ++ [] :: spilled) := by
      rw [List.append_assoc, h.1, List.append_assoc]
    _ = _ := by
      rw [intercalate_append lineEnd h.lines.ne_nil (List.cons_ne_nil _ _),
        List.intercalate_cons_of_ne_nil h.spilled_ne_nil, List.nil_append]

theorem first_headerEnd (h : Divided p more spilled) :
    First (crlf ++ crlf) (sectionOf p).raw (encode (lineEnd.intercalate (ownLines p ++ more)))
      (encode (lineEnd.intercalate spilled) ++ p.body) := by
  have hj := congrArg encode h.headerBlock_append
  simp only [encode_append, show encode lineEnd = crlf from rfl] at hj
  have hr : (sectionOf p).raw =
    encode (lineEnd.intercalate (ownLines p ++ more)) ++ (crlf ++ crlf) ++
      (encode (lineEnd.intercalate spilled) ++ p.body) := by
    rw [sectionOf, ← List.append_assoc _ crlf crlf, hj]
    simp only [List.append_assoc]
  exact hr ▸ first_emptyLine h.lines.ne_nil h.lines.unbroken h.nil_not_mem _

end Divided

/-- A field is received with its own headers, those that its further lines make up to an empty one,
and what is left of them in front of its content. -/
theorem isPart_sectionOf_iff {more spilled : List (List Char)} (h : Divided p more spilled) :
    IsPart (sectionOf p).raw q ↔ ∃ headers,
      List.Forall₂ HeaderLine (more.filter fun line => trim line ≠ []) headers ∧
        q = ⟨ownHeaders p ++ headers, encode (lineEnd.intercalate spilled) ++ p.body⟩ := by
  have hraw : ¬ crlf <+: (sectionOf p).raw := by
    obtain ⟨bs, hb⟩ : ∃ bs, (sectionOf p).raw = 67 :: bs := ⟨_, rfl⟩
    simp [hb, crlf]
  constructor
  · intro hq
    generalize hs : (sectionOf p).raw = raw at hq
    cases hq with
    | bare body => exact absurd (hs ▸ List.prefix_append crlf body) hraw
    | headed hn hf hl hh =>
      rename_i head body lines headers
      obtain ⟨rfl, rfl⟩ := h.first_headerEnd.unique (hs ▸ hf)
      rw [Text.Utf8.decodeLossy_encode] at hl
      obtain rfl := hl.crlfLines_eq.symm.trans h.lines.crlfLines_eq
      rw [filter_ownLines_append, forall₂_ownLines_append_iff] at hh
      obtain ⟨more, hm, rfl⟩ := hh
      exact ⟨more, hm, rfl⟩
  · rintro ⟨headers, hh, rfl⟩
    have hl : Lines (Text.Utf8.decodeLossy (encode (lineEnd.intercalate (ownLines p ++ more))))
        (ownLines p ++ more) := by
      rw [Text.Utf8.decodeLossy_encode]
      exact h.lines
    refine .headed hraw h.first_headerEnd hl ?_
    rw [filter_ownLines_append, forall₂_ownLines_append_iff]
    exact ⟨headers, hh, rfl⟩

/-! ### What is received -/

theorem TypeOnLine.confined (h : TypeOnLine p) : Confined p := by
  obtain ⟨name, file, body⟩ := p
  cases file with
  | none => exact List.forall_mem_nil _
  | some file =>
    have hl := Text.crlfLines_of_not_infix (h file.1 file.2 rfl)
    change ∀ line ∈ (crlfLines file.2.toList).tail, line ≠ [] ∧ trim line = []
    rw [hl]
    exact List.forall_mem_nil _

theorem blank_of_trim_eq_nil {line : List Char} (h : trim line = []) :
    ∀ c ∈ line, Text.isBlank c = true := by
  intro c hc
  by_contra hb
  have hm : c ∈ trim line := Text.mem_dropBothWhile (Bool.eq_false_iff.2 hb) hc
  rw [h] at hm
  cases hm

theorem blank_of_mem_lineEnd : ∀ c ∈ lineEnd, Text.isBlank c = true := by simp [Text.isBlank]

theorem blank_of_mem_intercalate {lines : List (List Char)}
    (h : ∀ line ∈ lines, trim line = []) :
    ∀ c ∈ lineEnd.intercalate lines, Text.isBlank c = true := by
  induction lines with
  | nil => exact List.forall_mem_nil _
  | cons line lines ih =>
    obtain ⟨hl, h⟩ := List.forall_mem_cons.1 h
    by_cases hn : lines = []
    · rw [hn, List.intercalate_singleton]
      exact blank_of_trim_eq_nil hl
    · rw [List.intercalate_cons_of_ne_nil hn]
      exact List.forall_mem_append.2
        ⟨List.forall_mem_append.2 ⟨blank_of_trim_eq_nil hl, blank_of_mem_lineEnd⟩, ih h⟩

theorem trim_intercalate (first : List Char) {further : List (List Char)}
    (h : ∀ line ∈ further, trim line = []) :
    trim (lineEnd.intercalate (first :: further)) = trim first := by
  by_cases hn : further = []
  · rw [hn, List.intercalate_singleton]
  · rw [List.intercalate_cons_of_ne_nil hn, List.append_assoc]
    exact Text.dropBothWhile_append_of_pos
      (List.forall_mem_append.2 ⟨blank_of_mem_lineEnd, blank_of_mem_intercalate h⟩)

theorem Confined.received_eq (h : Confined p) : received p = ⟨ownHeaders p, p.body⟩ := by
  suffices hh : (received p).headers = ownHeaders p from congrArg (Part.mk · p.body) hh
  rw [received_headers]
  obtain ⟨name, file, body⟩ := p
  cases file with
  | none => rfl
  | some file =>
    have hl := lines_crlfLines file.2.toList
    obtain ⟨first, further, hf⟩ := List.exists_cons_of_ne_nil hl.ne_nil
    rw [hf] at hl
    have ht : trim file.2.toList = trim first := by
      rw [← hl.joined]
      refine trim_intercalate first fun line hm => (h line ?_).2
      change line ∈ (crlfLines file.2.toList).tail
      rw [hf]
      exact hm
    simp only [ownHeaders, hf, List.headD_cons, ht]

theorem Confined.divided (h : Confined p) : Divided p (furtherLines p) [[]] :=
  ⟨rfl, fun hm => (h [] hm).1 rfl⟩

/-- What is read of a field keeps its headers and its content only if its content type is
confined. -/
theorem confined_of_isPart (h : IsPart (sectionOf p).raw q)
    (hh : q.headers.length = (ownHeaders p).length) (hb : q.body = p.body) : Confined p := by
  obtain ⟨more, spilled, hd⟩ := exists_divided p
  obtain ⟨headers, hm, rfl⟩ := (isPart_sectionOf_iff hd).1 h
  have hblank : ∀ line ∈ more, trim line = [] := by
    have hn : headers = [] := by simpa using hh
    rw [hn, List.forall₂_nil_right_iff, List.filter_eq_nil_iff] at hm
    simpa using hm
  have hspilled : lineEnd.intercalate spilled = [] := by
    have hn : encode (lineEnd.intercalate spilled) = [] := by simpa using hb
    rw [← Text.Utf8.decodeLossy_encode (lineEnd.intercalate spilled), hn]
    rfl
  have hone : spilled = [[]] := by
    obtain ⟨line, lines, rfl⟩ := List.exists_cons_of_ne_nil hd.spilled_ne_nil
    cases lines with
    | nil => rw [← hspilled, List.intercalate_singleton]
    | cons next lines =>
      rw [List.intercalate_cons_cons] at hspilled
      simp at hspilled
  rw [hone] at hd
  have hf : furtherLines p = more := List.append_cancel_right hd.1
  intro line hl
  rw [hf] at hl
  exact ⟨fun hn => hd.2 (hn ▸ hl), hblank line hl⟩

theorem isPart_received_iff : IsPart (sectionOf p).raw (received p) ↔ Confined p := by
  constructor
  · intro h
    refine confined_of_isPart h ?_ rfl
    rw [received_headers, ownHeaders]
    cases p.file with
    | none => rfl
    | some file => rfl
  · intro h
    rw [h.received_eq, isPart_sectionOf_iff h.divided]
    refine ⟨[], ?_, by rw [List.append_nil]; rfl⟩
    have hn : (furtherLines p).filter (fun line => trim line ≠ []) = [] := by
      rw [List.filter_eq_nil_iff]
      intro line hm
      simp [(h line hm).2]
    rw [hn]
    exact .nil

end RemoteCall.Multipart
