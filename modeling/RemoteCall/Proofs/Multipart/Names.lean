import RemoteCall.Proofs.Multipart.Disposition
import RemoteCall.Proofs.Multipart.Injection

/-!
Which names of fields and files are read back from a form that was encoded. Main statement: the name
of a field is, unless a separator of parameters is in it, and the name of a file is, unless the name
of its field ends like the opening of a file name.
-/

namespace RemoteCall.Multipart

open Text (First dropBothWhile dropEndWhile fields trim trimEnd)

variable (p : FormPart)

/-! ### Names of fields -/

/-- What is read of a quoted name whose closing quote is cut off. -/
theorem nameValue?_of_open {name : List Char} (h : '"' ∉ name) :
    Part.nameValue? (' ' :: ("name=".toList ++ '"' :: name)) = some (trimEnd name) := by
  have hs : '"' ∉ trimEnd name := by
    intro hm
    rw [trimEnd, dropEndWhile, List.mem_reverse] at hm
    exact h (List.mem_reverse.1 ((List.dropWhile_sublist _).subset hm))
  have ht : trim (' ' :: ("name=".toList ++ '"' :: name)) =
      "name=".toList ++ '"' :: trimEnd name := by
    rw [trim, Text.dropBothWhile_cons_of_pos (by decide), dropBothWhile]
    exact Text.dropEndWhile_append_cons (by decide) "name=".toList name
  have hq : ∀ c ∈ ['"'], c = '"' := fun _ => List.eq_of_mem_singleton
  have hd := Text.dropBothWhile_between_of_not_mem hs hq (List.forall_mem_nil _)
  rw [List.append_nil, List.singleton_append] at hd
  rw [Part.nameValue?, ht, Text.afterStart?_append, Option.map_some, hd]

/-- Of a name with a separator in it, what stands in front of the first is read back. -/
theorem fieldName?_of_separator {name rest : List Char} (hq : quote p.name = name ++ ';' :: rest)
    (hn : ';' ∉ name) : (received p).fieldName? = some (String.ofList (trimEnd name)) := by
  have ho : '"' ∉ name := by
    intro hm
    exact not_mem_quote (.inl rfl) p.name (hq ▸ List.mem_append_left _ hm)
  have hs : ';' ∉ ' ' :: ("name=".toList ++ '"' :: name) := by simp [hn]
  obtain ⟨file, hd⟩ : ∃ file, disposition p = "form-data".toList ++ ';' ::
      (' ' :: ("name=".toList ++ '"' :: (quote p.name ++ ['"'])) ++ file) :=
    ⟨_, disposition_eq_parameters p⟩
  have hp : disposition p = "form-data".toList ++ ';' ::
      (' ' :: ("name=".toList ++ '"' :: name) ++ ';' :: (rest ++ '"' :: file)) := by
    rw [hd, hq]
    simp
  have hf := Text.fields_append_cons (show ';' ∉ "form-data".toList by decide)
    (' ' :: ("name=".toList ++ '"' :: name) ++ ';' :: (rest ++ '"' :: file))
  rw [← hp, Text.fields_append_cons hs] at hf
  exact fieldName?_of_fields p hf (nameValue?_of_open ho)

theorem fieldName?_received_iff :
    (received p).fieldName? = some (String.ofList (quote p.name)) ↔ ';' ∉ p.name.toList := by
  refine ⟨fun h hm => ?_, fieldName?_received p⟩
  have hs : ';' ∈ quote p.name :=
    List.mem_flatMap.2 ⟨';', hm, by decide⟩
  obtain ⟨name, rest, hq, hn⟩ := List.eq_append_cons_of_mem hs
  rw [fieldName?_of_separator p hq hn] at h
  have he : trimEnd name = quote p.name := by
    simpa only [String.toList_ofList] using congrArg String.toList (Option.some.inj h)
  have hm : ';' ∈ trimEnd name := he ▸ hs
  rw [trimEnd, dropEndWhile, List.mem_reverse] at hm
  exact hn (List.mem_reverse.1 ((List.dropWhile_sublist _).subset hm))

/-! ### Names of files -/

theorem concat_suffix_concat_iff {α : Type} {xs ys : List α} {x y : α} :
    xs ++ [x] <:+ ys ++ [y] ↔ xs <:+ ys ∧ x = y := by
  rw [← List.reverse_prefix, List.reverse_append, List.reverse_append, List.reverse_singleton,
    List.reverse_singleton, List.singleton_append, List.singleton_append, List.cons_prefix_cons,
    List.reverse_prefix, and_comm]

/-- A quoted text ends with what is written as itself exactly if the text does. -/
theorem suffix_quote_iff {needle cs : List Char} (hw : ∀ c ∈ needle, c ∉ ['%', '2', ' '])
    (hs : ∀ c ∈ needle, ¬ (c = '"' ∨ c = '\r' ∨ c = '\n')) :
    needle <:+ cs.flatMap quoteChar ↔ needle <:+ cs := by
  induction cs using List.reverseRecOn generalizing needle with
  | nil => rfl
  | append_singleton cs d ih =>
    rcases needle.eq_nil_or_concat with rfl | ⟨front, c, rfl⟩
    · simp
    · rw [List.concat_eq_append] at hw hs ⊢
      obtain ⟨hw, hwc⟩ := List.forall_mem_append.1 hw
      obtain ⟨hs, hsc⟩ := List.forall_mem_append.1 hs
      have hwc := hwc c List.mem_cons_self
      have hsc := hsc c List.mem_cons_self
      rw [List.flatMap_append, List.flatMap_singleton, concat_suffix_concat_iff]
      rcases quoteChar_cases d with ⟨hd, hq⟩ | ⟨hd, hq⟩ | ⟨-, hq⟩
      · rw [hq, show ['%', '2', '2'] = ['%', '2'] ++ ['2'] from rfl, ← List.append_assoc,
          concat_suffix_concat_iff]
        refine ⟨fun h => absurd (by simp [h.2]) hwc, fun h => absurd (.inl (h.2.trans hd)) hsc⟩
      · rw [hq, concat_suffix_concat_iff]
        exact ⟨fun h => absurd (by simp [h.2]) hwc, fun h => absurd (.inr (h.2 ▸ hd)) hsc⟩
      · rw [hq, concat_suffix_concat_iff, ih hw hs]

variable {filename type : String}

/-- Where the name of a field ends like the opening of a file name, its closing quote opens one. -/
theorem filename_of_opening (hf : p.file = some (filename, type))
    (hs : "filename=".toList <:+ quote p.name) :
    Multipart.filename (disposition p) = .ok ("; filename=\"".toList ++ quote filename) := by
  obtain ⟨front, hq⟩ := hs
  have hd : disposition p = "form-data; name=\"".toList ++ front ++ ("filename=".toList ++ ['"']) ++
      ("; filename=\"".toList ++ quote filename ++ ['"']) := by
    rw [disposition_eq, hf, ← hq]
    simp
  have hfirst : First ("filename=".toList ++ ['"']) (disposition p)
      ("form-data; name=\"".toList ++ front)
      ("; filename=\"".toList ++ quote filename ++ ['"']) := by
    refine (First.iff_not_occurring (by decide)).2 ⟨hd, fun hi => ?_⟩
    rw [List.dropLast_concat, List.append_assoc, hq] at hi
    have hc : "form-data; name=\"".toList ++ quote p.name =
        "form-data; name=".toList ++ '"' :: quote p.name := by simp
    rw [hc] at hi
    rcases Text.suffix_or_infix_of_concat (by decide) (by decide) hi with hp | hi
    · exact absurd hp (by decide)
    · have hm := hi.subset (List.mem_append_right _ List.mem_cons_self)
      exact not_mem_quote (.inl rfl) p.name hm
  apply filename_of_line
  exact ⟨_, [], hfirst, List.not_mem_nil, List.cons_ne_nil _ _⟩

theorem filename_disposition_iff (hf : p.file = some (filename, type)) (hn : filename ≠ "") :
    Multipart.filename (disposition p) = .ok (quote filename) ↔
      ¬ "filename=".toList <:+ p.name.toList := by
  have hq : "filename=".toList <:+ quote p.name ↔ "filename=".toList <:+ p.name.toList :=
    suffix_quote_iff (by simp) (by simp)
  rw [← hq]
  refine ⟨fun h hs => ?_, fun hs => filename_disposition p hf hs hn⟩
  rw [filename_of_opening p hf hs] at h
  have hl := congrArg List.length (Except.ok.inj h)
  rw [List.length_append] at hl
  exact absurd hl (by simp)

/-! ### Names in a form -/

/-- The names of a part that has the headers of a field in front are those of the field. -/
theorem header?_of_ownHeaders {q : Part} (h : ownHeaders p <+: q.headers) :
    q.header? "content-disposition" = some (String.ofList (disposition p)) := by
  obtain ⟨more, hq⟩ := h
  exact header?_of_first hq.symm

theorem fieldName?_of_ownHeaders {q : Part} (h : ownHeaders p <+: q.headers) :
    q.fieldName? = (received p).fieldName? := by
  rw [Part.fieldName?, Part.fieldName?, header?_of_ownHeaders p h, header?_disposition]

/-- A form whose content types are confined is read back. Of every form that is, the name of a field
comes back exactly if it has no separator of parameters in it, and the name of a file exactly if the
name of its field does not end like the opening of a file name. -/
theorem decode_encodeForm_names (stamp count : Nat) (parts : List FormPart) :
    ((∀ p ∈ parts, Confined p) →
      ∃ qs, decode (encodeForm stamp count parts).1.contentType.toList
        (encodeForm stamp count parts).1.body = .ok qs) ∧
    ∀ qs, decode (encodeForm stamp count parts).1.contentType.toList
        (encodeForm stamp count parts).1.body = .ok qs →
      List.Forall₂ (fun p q =>
        (q.fieldName? = some (String.ofList (quote p.name)) ↔ ';' ∉ p.name.toList) ∧
        ∀ filename type, p.file = some (filename, type) → filename ≠ "" →
          ∃ value, q.header? "content-disposition" = some value ∧
            (Multipart.filename value.toList = .ok (quote filename) ↔
              ¬ "filename=".toList <:+ p.name.toList)) parts qs := by
  refine ⟨fun h => ⟨_, (decode_encodeForm_eq_received_iff stamp count).2 h⟩, fun qs h => ?_⟩
  refine ((decode_encodeForm_eq_ok_iff stamp count).1 h).imp fun p q hq => ?_
  have hp := (ownHeaders_in_front hq).1
  refine ⟨fieldName?_of_ownHeaders p hp ▸ fieldName?_received_iff p,
    fun filename type hf hn => ?_⟩
  refine ⟨_, header?_of_ownHeaders p hp, ?_⟩
  rw [String.toList_ofList]
  exact filename_disposition_iff p hf hn

/-- Names with quotes and with what looks like the names of parameters. -/
def misleading : FormPart := .ofFile "x name=\"" "; filename=\"\r\n" "" []

theorem decode_encodeForm_names_misleading :
    ∃ q, decode (encodeForm 1 0 [misleading]).1.contentType.toList
        (encodeForm 1 0 [misleading]).1.body = .ok [q] ∧
      q.fieldName? = some "x name=%22" ∧
      ∃ value, q.header? "content-disposition" = some value ∧
        Multipart.filename value.toList = .ok "; filename=%22  ".toList := by
  obtain ⟨qs, hd⟩ := (decode_encodeForm_names 1 0 [misleading]).1 (by decide)
  have h := (decode_encodeForm_names 1 0 [misleading]).2 qs hd
  obtain ⟨q, _, ⟨hname, hfile⟩, hnil, rfl⟩ := List.forall₂_cons_left_iff.1 h
  obtain rfl := List.forall₂_nil_left_iff.1 hnil
  obtain ⟨value, hv, hf⟩ := hfile _ _ rfl (by decide)
  exact ⟨q, hd, hname.2 (by decide), value, hv, hf.2 (by decide)⟩

/-- A name with a separator in it, and one that ends like the opening of a file name. -/
def misread : List FormPart := [.ofFile "a;b" "x" "t" [], .ofFile "filename=" "x" "t" []]

theorem decode_misreads_names :
    ∃ q r, decode (encodeForm 1 0 misread).1.contentType.toList (encodeForm 1 0 misread).1.body =
        .ok [q, r] ∧
      q.fieldName? = some "a" ∧
      ∃ value, r.header? "content-disposition" = some value ∧
        Multipart.filename value.toList = .ok "; filename=\"x".toList := by
  have hq : quote "a;b" = ['a'] ++ ';' :: ['b'] := by decide
  refine ⟨_, _, (decode_encodeForm_eq_received_iff 1 0).2 (by decide), ?_, _,
    header?_disposition _, ?_⟩
  · exact fieldName?_of_separator (.ofFile "a;b" "x" "t" []) hq (by decide)
  · rw [String.toList_ofList]
    exact filename_of_opening (.ofFile "filename=" "x" "t" []) rfl (by decide)

end RemoteCall.Multipart
