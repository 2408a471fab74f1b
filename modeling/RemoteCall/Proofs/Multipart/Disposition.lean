import RemoteCall.Proofs.Multipart.Filename
import RemoteCall.Proofs.Multipart.RoundTrip

/-! The names that are read back from the disposition of a field. -/

namespace RemoteCall.Multipart

open Text (First fields trim)

def Plain (s : String) : Prop := ∀ c ∈ s.toList, c ≠ '"' ∧ c ≠ '\r' ∧ c ≠ '\n'

theorem Plain.quote_eq {s : String} (h : Plain s) : quote s = s.toList := by
  have hs : s.toList.flatMap quoteChar = s.toList.flatMap fun c => [c] := by
    apply List.flatMap_congr
    intro c hc
    rcases quoteChar_cases c with ⟨hq, -⟩ | ⟨hn, -⟩ | ⟨-, he⟩
    · exact absurd hq (h c hc).1
    · exact absurd hn (not_or.2 (h c hc).2)
    · exact he
  rw [quote, hs, List.flatMap_singleton']

theorem quote_ne_nil {s : String} (h : s ≠ "") : quote s ≠ [] := by
  intro hq
  obtain ⟨c, cs, hc⟩ := List.exists_cons_of_ne_nil (mt String.toList_eq_nil_iff.1 h)
  rw [quote, hc, List.flatMap_cons, List.append_eq_nil_iff] at hq
  rcases quoteChar_cases c with ⟨-, he⟩ | ⟨-, he⟩ | ⟨-, he⟩
  · cases he.symm.trans hq.1
  · cases he.symm.trans hq.1
  · cases he.symm.trans hq.1

/-! ### Headers of parts -/

variable (p : FormPart)

theorem header?_of_first {q : Part} {value : String} {more : List (String × String)}
    (h : q.headers = ("Content-Disposition", value) :: more) :
    q.header? "content-disposition" = some value := by
  have hn :
    Text.sameIgnoringCase "Content-Disposition".toList "content-disposition".toList = true :=
    by decide
  simp only [Part.header?, h, List.find?_cons, hn, Option.map_some]

theorem header?_disposition : (received p).header? "content-disposition" =
    some (String.ofList (disposition p)) :=
  header?_of_first (received_headers p)

theorem header?_type : (received p).header? "content-type" =
    p.file.map fun file => String.ofList (trim file.2.toList) := by
  have hd : Text.sameIgnoringCase "Content-Disposition".toList "content-type".toList = false := by
    decide
  have ht : Text.sameIgnoringCase "Content-Type".toList "content-type".toList = true := by decide
  rw [Part.header?, received_headers]
  cases p.file with
  | none => simp only [List.find?_cons, hd, List.find?_nil, Option.map_none]
  | some file => simp only [List.find?_cons, hd, ht, Option.map_some]

/-! ### Names of fields -/

theorem nameValue?_quote (name : String) :
    Part.nameValue? (' ' :: ("name=".toList ++ '"' :: (quote name ++ ['"']))) =
      some (quote name) := by
  have hq : ∀ c ∈ ['"'], c = '"' := fun _ => List.eq_of_mem_singleton
  have ht : trim (' ' :: ("name=".toList ++ '"' :: (quote name ++ ['"']))) =
      "name=".toList ++ '"' :: (quote name ++ ['"']) := by
    rw [trim, Text.dropBothWhile_cons_of_pos (by decide), Text.dropBothWhile_eq_self]
    · intro c hc
      cases hc
      decide
    · intro c hc
      rw [← List.cons_append, ← List.append_assoc, List.getLast?_concat] at hc
      cases hc
      decide
  have hd := Text.dropBothWhile_between_of_not_mem (not_mem_quote (.inl rfl) name) hq hq
  rw [List.singleton_append, List.cons_append] at hd
  rw [Part.nameValue?, ht, Text.afterStart?_append, Option.map_some, hd]

theorem disposition_eq_parameters : disposition p =
    "form-data".toList ++ ';' :: (' ' :: ("name=".toList ++ '"' :: (quote p.name ++ ['"'])) ++
      match p.file with
      | some (filename, _) => ';' :: ' ' :: ("filename=".toList ++ '"' :: (quote filename ++ ['"']))
      | none => []) := by
  rw [disposition_eq]
  cases p.file with
  | none => simp
  | some file => simp

theorem exists_fields_disposition (h : ';' ∉ p.name.toList) :
    ∃ more, fields ';' (disposition p) =
      "form-data".toList :: (' ' :: ("name=".toList ++ '"' :: (quote p.name ++ ['"']))) ::
        more := by
  have hn : ';' ∉ ' ' :: ("name=".toList ++ '"' :: (quote p.name ++ ['"'])) := by
    have hq : ';' ∉ quote p.name := fun hm => (mem_quote hm).elim (by decide) fun hc => h hc.1
    simp [hq]
  rw [disposition_eq_parameters, Text.fields_append_cons (by decide)]
  cases p.file with
  | none => exact ⟨[], by rw [List.append_nil, Text.fields_of_not_mem hn]⟩
  | some file => exact ⟨_, by rw [Text.fields_append_cons hn]⟩

theorem fieldName?_of_fields {parameter name : List Char} {more : List (List Char)}
    (hf : fields ';' (disposition p) = "form-data".toList :: parameter :: more)
    (hn : Part.nameValue? parameter = some name) :
    (received p).fieldName? = some (String.ofList name) := by
  have hv : Part.nameValue? "form-data".toList = none := by decide
  simp only [Part.fieldName?, header?_disposition, Option.bind_eq_bind, Option.bind_some,
    String.toList_ofList, hf, List.findSome?_cons, hv, hn]
  rfl

theorem fieldName?_received (h : ';' ∉ p.name.toList) :
    (received p).fieldName? = some (String.ofList (quote p.name)) := by
  obtain ⟨more, hf⟩ := exists_fields_disposition p h
  exact fieldName?_of_fields p hf (nameValue?_quote p.name)

theorem fieldName?_of_plain (h : ';' ∉ p.name.toList) (hp : Plain p.name) :
    (received p).fieldName? = some p.name := by
  rw [fieldName?_received p h, hp.quote_eq, String.ofList_toList]

/-! ### Names of files -/

/-- The opening quote of a file name is the first that looks like one, unless the name of the field
ends the way it begins. -/
theorem first_filename {name : String} (hs : ¬ "filename=".toList <:+ quote name)
    (filename : List Char) :
    First ("filename=".toList ++ ['"'])
      ("form-data; name=".toList ++ '"' :: (quote name ++ '"' :: ("; ".toList ++
        "filename=".toList ++ '"' :: filename)))
      ("form-data; name=".toList ++ '"' :: (quote name ++ '"' :: "; ".toList)) filename := by
  have hd : ("filename=".toList ++ ['"']).dropLast = "filename=".toList := List.dropLast_concat
  refine (First.iff_not_occurring (by decide)).2 ⟨by simp, fun hi => ?_⟩
  rw [hd, List.append_assoc, List.cons_append, List.append_assoc, List.cons_append] at hi
  rcases Text.suffix_or_infix_of_concat (by decide) (by decide) hi with hp | hi
  · exact absurd hp (by decide)
  · rcases Text.suffix_or_infix_of_concat (by decide)
      (not_mem_quote (.inl rfl) name) hi with hq | hi
    · exact hs hq
    · have hm := hi.subset (List.mem_append_right _ List.mem_cons_self)
      exact absurd hm (by decide)

theorem namesFile_disposition {filename type : String} (hf : p.file = some (filename, type))
    (hs : ¬ "filename=".toList <:+ quote p.name) (hn : filename ≠ "") :
    NamesFile (disposition p) (quote filename) := by
  have hd : disposition p =
      "form-data; name=".toList ++ '"' :: (quote p.name ++ '"' :: ("; ".toList ++
        "filename=".toList ++ '"' :: (quote filename ++ ['"']))) := by
    rw [disposition_eq, hf]
    simp
  exact ⟨_, [], hd ▸ first_filename hs (quote filename ++ ['"']), List.not_mem_nil,
    quote_ne_nil hn⟩

theorem filename_of_line {name : List Char} (h : NamesFile (disposition p) name) :
    Multipart.filename (disposition p) = .ok name := by
  refine filename_eq_ok_iff.2 ⟨[], disposition p, [], ?_, h, nofun⟩
  exact Text.fields_of_not_mem (not_mem_disposition (.inr rfl) p)

theorem filename_disposition {filename type : String} (hf : p.file = some (filename, type))
    (hs : ¬ "filename=".toList <:+ quote p.name) (hn : filename ≠ "") :
    Multipart.filename (disposition p) = .ok (quote filename) :=
  filename_of_line p (namesFile_disposition p hf hs hn)

end RemoteCall.Multipart
