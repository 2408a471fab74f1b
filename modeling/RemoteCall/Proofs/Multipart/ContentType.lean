import RemoteCall.Multipart.Decoder
import RemoteCall.Proofs.Text.Pieces

/-!
The spellings of a content type that declares a boundary, stated without its reader. Main statement:
a body is decoded alike under all of them.
-/

namespace RemoteCall.Multipart

open Text (dropBothWhile fields isBlank lowercase sameIgnoringCase splitAt? trim)

/-! ### Words in any letter case -/

def Blank (cs : List Char) : Prop := ∀ c ∈ cs, isBlank c = true

theorem blank_iff {cs : List Char} : Blank cs ↔ cs.all isBlank = true :=
  List.all_eq_true.symm

instance : DecidablePred Blank := fun _ => decidable_of_iff _ blank_iff.symm

/-- The text is a word in any letter case, with any blanks around it. -/
def Spells (word cs : List Char) : Prop :=
  ∃ before middle after, cs = before ++ middle ++ after ∧ Blank before ∧ Blank after ∧
    lowercase middle = word

theorem toLower_of_isBlank {c : Char} (h : isBlank c = true) : c.toLower = c := by
  have hc : ¬ (c.val ≥ 'A'.val ∧ c.val ≤ 'Z'.val) := by
    rintro ⟨hl, hu⟩
    have hl : 65 ≤ c.toNat := hl
    have hu : c.toNat ≤ 90 := hu
    simp only [isBlank, Bool.or_eq_true, Bool.and_eq_true, decide_eq_true_eq, beq_iff_eq] at h
    omega
  exact dif_neg hc

section Words

variable {word cs : List Char}

theorem visible_of_lowercase (hv : word.any isBlank = false) (hl : lowercase cs = word) :
    ∀ c ∈ cs, isBlank c = false := by
  intro c hc
  rw [Bool.eq_false_iff]
  intro hb
  have hm : c.toLower ∈ word := hl ▸ List.mem_map_of_mem hc
  rw [toLower_of_isBlank hb] at hm
  exact List.any_eq_false.1 hv c hm hb

theorem Spells.not_mem {c : Char} (h : Spells word cs) (hb : isBlank c = false)
    (hc : c.toLower ∉ word) : c ∉ cs := by
  obtain ⟨before, middle, after, rfl, hbefore, hafter, rfl⟩ := h
  simp only [List.mem_append, not_or]
  refine ⟨⟨fun hm => ?_, fun hm => hc (List.mem_map_of_mem hm)⟩, fun hm => ?_⟩
  · exact Bool.eq_false_iff.1 hb (hbefore c hm)
  · exact Bool.eq_false_iff.1 hb (hafter c hm)

theorem sameIgnoringCase_trim_iff (hv : word.any isBlank = false) (hl : lowercase word = word) :
    sameIgnoringCase (trim cs) word = true ↔ Spells word cs := by
  rw [sameIgnoringCase, beq_iff_eq]
  change lowercase (trim cs) = lowercase word ↔ _
  rw [hl]
  constructor
  · intro h
    obtain ⟨before, after, he, hb, ha⟩ := Text.exists_around_dropBothWhile isBlank cs
    exact ⟨before, trim cs, after, he, hb, ha, h⟩
  · rintro ⟨before, middle, after, rfl, hb, ha, hm⟩
    have hmv := visible_of_lowercase hv hm
    rw [trim, Text.dropBothWhile_between hb ha (fun c hc => hmv c (List.mem_of_mem_head? hc))
      (fun c hc => hmv c (List.mem_of_getLast? hc)), hm]

end Words

/-! ### Spellings -/

/-- A content type in its pieces: the parameter with `name` and `value` is the one that declares
the boundary, with others before it and more behind it. -/
structure Spelling where
  type : List Char
  others : List (List Char)
  name : List Char
  value : List Char
  more : List (List Char)

/-- The text of a media type for several parts, in any letter case and with any blanks in front. -/
def IsMultipartType (cs : List Char) : Prop :=
  ∃ before word rest, cs = before ++ (word ++ rest) ∧ Blank before ∧
    lowercase word = "multipart/".toList

/-- A parameter without a value has no name. -/
def NamesBoundary (parameter : List Char) : Prop :=
  ∃ name value, parameter = name ++ '=' :: value ∧ '=' ∉ name ∧
    Spells "boundary".toList name

theorem isBoundaryName_iff {name : List Char} :
    sameIgnoringCase (trim name) "boundary".toList = true ↔ Spells "boundary".toList name :=
  sameIgnoringCase_trim_iff (by decide) (by decide)

theorem namesBoundary_iff {parameter : List Char} : NamesBoundary parameter ↔
    ((splitAt? '=' parameter).any fun p => sameIgnoringCase (trim p.1) "boundary".toList) =
      true := by
  constructor
  · rintro ⟨name, value, rfl, hn, hs⟩
    rw [Text.splitAt?_append_cons hn]
    exact isBoundaryName_iff.2 hs
  · intro h
    cases hp : splitAt? '=' parameter with
    | none =>
      rw [hp] at h
      cases h
    | some p =>
      rw [hp] at h
      obtain ⟨he, hn⟩ := Text.splitAt?_eq_some_iff.1 hp
      exact ⟨p.1, p.2, he, hn, isBoundaryName_iff.1 h⟩

instance : DecidablePred NamesBoundary := fun _ => decidable_of_iff _ namesBoundary_iff.symm

/-- What a boundary is written as: bare or in quotes, with any blanks around. -/
inductive Writes (b : List Char) : List Char → Prop
  | bare {before after : List Char} : Blank before → Blank after →
    Writes b (before ++ b ++ after)
  | quoted {before after : List Char} : Blank before → Blank after →
    Writes b (before ++ ('"' :: (b ++ ['"'])) ++ after)

/-- A boundary that can be declared: it is not empty, it has neither a semicolon nor a quote in it,
and it neither starts nor ends with a blank. -/
structure Declarable (b : List Char) : Prop where
  ne_nil : b ≠ []
  semicolon : ';' ∉ b
  quote : '"' ∉ b
  head : ∀ c ∈ b.head?, isBlank c = false
  last : ∀ c ∈ b.getLast?, isBlank c = false

namespace Spelling

def pieces (s : Spelling) : List (List Char) :=
  s.type :: (s.others ++ (s.name ++ '=' :: s.value) :: s.more)

def text (s : Spelling) : List Char := [';'].intercalate s.pieces

structure Declares (s : Spelling) (b : List Char) : Prop where
  type : IsMultipartType s.type
  others : ∀ parameter ∈ s.others, ¬ NamesBoundary parameter
  name : Spells "boundary".toList s.name
  value : Writes b s.value
  separate : ∀ piece ∈ s.type :: (s.others ++ s.more), ';' ∉ piece

/-- The spelling that forms are sent with. -/
def ofBoundary (b : List Char) : Spelling :=
  ⟨"multipart/form-data".toList, [], " boundary".toList, b, []⟩

theorem text_ofBoundary (b : List Char) :
    (ofBoundary b).text = "multipart/form-data; boundary=".toList ++ b := by
  have hl : "multipart/form-data".toList ++ ([';'] ++ (" boundary".toList ++ ['='])) =
      "multipart/form-data; boundary=".toList := by decide
  calc
    _ = [';'].intercalate ["multipart/form-data".toList, " boundary".toList ++ ['='] ++ b] :=
      congrArg (fun piece => [';'].intercalate [_, piece]) (List.append_assoc _ ['='] b).symm
    _ = "multipart/form-data".toList ++ ([';'] ++ (" boundary".toList ++ ['='])) ++ b := by
      simp only [List.intercalate_cons_cons, List.intercalate_singleton, List.append_assoc]
    _ = _ := by rw [hl]

theorem declares_ofBoundary (b : List Char) : (ofBoundary b).Declares b where
  type :=
    have ht : "multipart/form-data".toList = [] ++ ("multipart/".toList ++ "form-data".toList) := by
      decide
    ⟨_, _, _, ht, by decide, by decide⟩
  others := List.forall_mem_nil _
  name :=
    have hn : " boundary".toList = [' '] ++ "boundary".toList ++ [] := by decide
    ⟨_, _, _, hn, by decide, by decide, by decide⟩
  value := by
    have hw : Writes b ([] ++ b ++ []) := .bare (by decide) (by decide)
    rwa [List.nil_append, List.append_nil] at hw
  separate :=
    have ht : ';' ∉ "multipart/form-data".toList := by decide
    List.forall_mem_singleton.2 ht

end Spelling

/-! ### What the reader finds -/

theorem starts_mediaType {cs : List Char} (h : IsMultipartType cs) :
    "multipart/".toList <+: lowercase (trim cs) := by
  obtain ⟨before, word, rest, rfl, hb, hw⟩ := h
  have hv := visible_of_lowercase (show "multipart/".toList.any isBlank = false by decide) hw
  have hd : (before ++ (word ++ rest)).dropWhile isBlank = word ++ rest := by
    apply Text.dropWhile_append_eq_right hb
    cases word with
    | nil => exact absurd hw (by decide)
    | cons c word =>
      intro d hd
      cases hd
      exact hv c List.mem_cons_self
  have hp : word <+: trim (before ++ (word ++ rest)) := by
    rw [trim, dropBothWhile, hd]
    exact Text.prefix_dropEndWhile (fun c hc => hv c (List.mem_of_getLast? hc)) rest
  exact hw ▸ hp.map Char.toLower

theorem exists_word_of_starts {cs : List Char}
    (h : "multipart/".toList <+: lowercase (trim cs)) : IsMultipartType cs := by
  obtain ⟨before, after, he, hb, -⟩ := Text.exists_around_dropBothWhile isBlank cs
  obtain ⟨rest, hr⟩ := h
  obtain ⟨word, rest, hw, hl, -⟩ := List.map_eq_append_iff.1 hr.symm
  refine ⟨before, word, rest ++ after, ?_, hb, hl⟩
  rw [he]
  change before ++ trim cs ++ after = _
  rw [hw]
  simp only [List.append_assoc]

/-- A content type declares parts if its text starts so, for there is no semicolon in front. -/
theorem isMultipart_iff_isMultipartType {ct : List Char} :
    isMultipart ct = true ↔ IsMultipartType ct := by
  rw [isMultipart, List.isPrefixOf_iff_prefix, mediaType, Text.headD_fields]
  constructor
  · intro h
    obtain ⟨before, word, rest, he, hb, hw⟩ := exists_word_of_starts h
    refine ⟨before, word, rest ++ ct.dropWhile (· ≠ ';'), ?_, hb, hw⟩
    have hct := List.takeWhile_append_dropWhile (p := fun c => decide (c ≠ ';')) (l := ct)
    rw [he] at hct
    simpa only [List.append_assoc] using hct.symm
  · rintro ⟨before, word, rest, rfl, hb, hw⟩
    apply starts_mediaType
    refine ⟨before, word, rest.takeWhile (· ≠ ';'), ?_, hb, hw⟩
    have hsemi : ∀ c ∈ before ++ word, decide (c ≠ ';') = true := by
      intro c hc
      rw [decide_eq_true_eq]
      rintro rfl
      cases List.mem_append.1 hc with
      | inl hm => exact absurd (hb _ hm) (by decide)
      | inr hm =>
        have hl : ';'.toLower ∈ lowercase word := List.mem_map_of_mem hm
        rw [hw] at hl
        exact absurd hl (by decide)
    rw [← List.append_assoc, List.takeWhile_append_of_pos hsemi, List.append_assoc]

section Reading

variable {b : List Char} {s : Spelling}

theorem Writes.unquoted_eq {value : List Char} (h : Writes b value) (hb : Declarable b) :
    unquoted value = b := by
  cases h with
  | bare hbefore hafter =>
    rw [unquoted, trim, Text.dropBothWhile_between hbefore hafter hb.head hb.last]
    simpa using Text.dropBothWhile_between_of_not_mem hb.quote (List.forall_mem_nil _)
      (List.forall_mem_nil _)
  | quoted hbefore hafter =>
    rw [unquoted, trim, Text.dropBothWhile_between hbefore hafter]
    · have hq : ∀ c ∈ ['"'], c = '"' := fun _ => List.eq_of_mem_singleton
      exact Text.dropBothWhile_between_of_not_mem hb.quote hq hq
    · rintro c hc
      cases hc
      decide
    · rw [← List.cons_append, List.getLast?_concat]
      rintro c hc
      cases hc
      decide

theorem Writes.not_mem {value : List Char} (h : Writes b value) (hb : Declarable b) :
    ';' ∉ value := by
  have hn (cs : List Char) (hcs : Blank cs) : ';' ∉ cs := fun hm => absurd (hcs _ hm) (by decide)
  cases h with
  | bare hbefore hafter => simp [hn _ hbefore, hn _ hafter, hb.semicolon]
  | quoted hbefore hafter => simp [hn _ hbefore, hn _ hafter, hb.semicolon]

namespace Spelling.Declares

theorem fields_text (h : s.Declares b) (hb : Declarable b) : fields ';' s.text = s.pieces := by
  refine Text.fields_intercalate (fun piece hm => ?_) (List.cons_ne_nil _ _)
  have hp := h.separate piece
  simp only [pieces, List.mem_cons, List.mem_append] at hm hp
  rcases hm with hm | hm | rfl | hm
  · exact hp (.inl hm)
  · exact hp (.inr (.inl hm))
  · have hname : ';' ∉ s.name := h.name.not_mem (by decide) (by decide)
    simp [hname, h.value.not_mem hb]
  · exact hp (.inr (.inr hm))

theorem isMultipart_text (h : s.Declares b) (hb : Declarable b) : isMultipart s.text = true := by
  rw [isMultipart, mediaType, h.fields_text hb]
  exact List.isPrefixOf_iff_prefix.2 (starts_mediaType h.type)

theorem boundary_text (h : s.Declares b) (hb : Declarable b) : boundary s.text = .ok b := by
  have hother : (s.others.filterMap (splitAt? '=')).find?
      (fun p => sameIgnoringCase (trim p.1) "boundary".toList) = none := by
    rw [List.find?_eq_none]
    intro p hp hs
    obtain ⟨parameter, hm, he⟩ := List.mem_filterMap.1 hp
    exact h.others parameter hm (namesBoundary_iff.2 (he ▸ hs))
  have hname : '=' ∉ s.name := h.name.not_mem (by decide) (by decide)
  have hfind : (parameters s.text).find?
      (fun p => sameIgnoringCase (trim p.1) "boundary".toList) = some (s.name, s.value) := by
    rw [parameters, h.fields_text hb, pieces, List.drop_one, List.tail_cons, List.filterMap_append,
      List.find?_append, hother, Option.none_or,
      List.filterMap_cons_some (Text.splitAt?_append_cons hname s.value)]
    exact List.find?_cons_of_pos (isBoundaryName_iff.2 h.name)
  simp only [boundary, hfind, h.value.unquoted_eq hb, hb.ne_nil, if_false]

end Spelling.Declares

end Reading

/-! ### What a content type is decoded by -/

theorem decode_congr {ct ct' : List Char} (hm : isMultipart ct = isMultipart ct')
    (hb : boundary ct = boundary ct') (body : List UInt8) : decode ct body = decode ct' body := by
  simp only [decode, hm, hb]

/-- However a content type declares a boundary, its reader finds that boundary, and a body is
decoded as it is under the spelling that forms are sent with. -/
theorem decode_by_boundary {b : List Char} {s : Spelling} (hb : Declarable b) (h : s.Declares b) :
    boundary s.text = .ok b ∧
      ∀ body, decode s.text body =
        decode ("multipart/form-data; boundary=".toList ++ b) body := by
  have ho := Spelling.declares_ofBoundary b
  refine ⟨h.boundary_text hb, fun body => ?_⟩
  rw [← Spelling.text_ofBoundary]
  apply decode_congr
  · rw [h.isMultipart_text hb, ho.isMultipart_text hb]
  · rw [h.boundary_text hb, ho.boundary_text hb]

/-- A boundary in quotes, with equals signs and a comma in it, among parameters without a value and
parameters whose names are near. -/
def looseSpelling : Spelling where
  type := " MULTIPART/Mixed ".toList
  others := [" charset=utf-8".toList, "flag".toList, " boundary".toList, "xboundary=a".toList]
  name := "\tBounDARY ".toList
  value := " \"=a, b=--\"  ".toList
  more := ["boundary=other".toList, []]

theorem declares_looseSpelling : looseSpelling.Declares "=a, b=--".toList where
  type :=
    have ht : " MULTIPART/Mixed ".toList = [' '] ++ ("MULTIPART/".toList ++ "Mixed ".toList) := by
      decide
    ⟨_, _, _, ht, by decide, by decide⟩
  others :=
    have ho : ∀ parameter ∈ [" charset=utf-8".toList, "flag".toList, " boundary".toList,
        "xboundary=a".toList], ¬ NamesBoundary parameter := by decide
    ho
  name :=
    have hn : "\tBounDARY ".toList = ['\t'] ++ "BounDARY".toList ++ [' '] := by decide
    ⟨_, _, _, hn, by decide, by decide, by decide⟩
  value := by
    have hv : " \"=a, b=--\"  ".toList =
        [' '] ++ ('"' :: ("=a, b=--".toList ++ ['"'])) ++ [' ', ' '] := by decide
    change Writes _ " \"=a, b=--\"  ".toList
    rw [hv]
    exact .quoted (by decide) (by decide)
  separate :=
    have hs : ∀ piece ∈ [" MULTIPART/Mixed ".toList, " charset=utf-8".toList, "flag".toList,
        " boundary".toList, "xboundary=a".toList, "boundary=other".toList, []], ';' ∉ piece := by
      decide
    hs

theorem decode_by_boundary_loose :
    Declarable "=a, b=--".toList ∧ looseSpelling.Declares "=a, b=--".toList ∧
      boundary looseSpelling.text = .ok "=a, b=--".toList ∧
      ∀ body, decode looseSpelling.text body =
        decode ("multipart/form-data; boundary=".toList ++ "=a, b=--".toList) body := by
  have ht : trim "=a, b=--".toList = "=a, b=--".toList := by decide
  have hb : Declarable "=a, b=--".toList :=
    ⟨by decide, by decide, by decide, Text.not_head_of_dropBothWhile_eq_self ht,
      Text.not_last_of_dropBothWhile_eq_self ht⟩
  exact ⟨hb, declares_looseSpelling, decode_by_boundary hb declares_looseSpelling⟩

end RemoteCall.Multipart
