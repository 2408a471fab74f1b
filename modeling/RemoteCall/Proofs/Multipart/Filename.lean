import RemoteCall.Multipart.Part
import RemoteCall.Proofs.Text.Pattern

/-!
The file name that a disposition gives. Main statement: there is one exactly if one line offers one
and no other does, and it stands between the first opening on that line and the last quote.
-/

namespace RemoteCall.Multipart

open Text (First Longest RunsTo fields)

/-- A line that gives a file name: it begins behind the first opening on the line, and ends before
the last quote. -/
def NamesFile (line name : List Char) : Prop :=
  ∃ before after, First "filename=\"".toList line before (name ++ '"' :: after) ∧
    '"' ∉ after ∧ name ≠ []

/-- A disposition with one line that gives a file name, and no other that does. -/
def NamesOneFile (disposition name : List Char) : Prop :=
  ∃ front line back, fields '\n' disposition = front ++ line :: back ∧ NamesFile line name ∧
    ∀ other ∈ front ++ back, ∀ n, ¬ NamesFile other n

/-- A line with an opening on it and a quote behind, though not at once. -/
def OffersName (line : List Char) : Prop :=
  ∃ before name after, line = before ++ "filename=\"".toList ++ (name ++ '"' :: after) ∧
    name ≠ []

/-! ### Lines -/

theorem NamesFile.offersName {line name : List Char} (h : NamesFile line name) :
    OffersName line := by
  obtain ⟨before, after, hf, -, hn⟩ := h
  exact ⟨before, name, after, hf.eq, hn⟩

theorem exists_last_of_mem {α : Type} {x : α} {xs : List α} (h : x ∈ xs) :
    ∃ front back, xs = front ++ x :: back ∧ x ∉ back := by
  obtain ⟨back, front, he, hn⟩ := List.eq_append_cons_of_mem (List.mem_reverse.2 h)
  refine ⟨front.reverse, back.reverse, ?_, by simpa using hn⟩
  rw [← List.reverse_reverse xs, he]
  simp

/-- An opening that is of no use cannot hide one that is: what lies between the first opening and
the last quote is no shorter than what lies between any two. -/
theorem OffersName.exists_namesFile {line : List Char} (h : OffersName line) :
    ∃ name, NamesFile line name := by
  obtain ⟨before, name, after, hl, hn⟩ := h
  cases hc : Text.cut? "filename=\"".toList line with
  | none => exact absurd ⟨before, _, hl.symm⟩ (Text.cut?_eq_none_iff.1 hc)
  | some found =>
    obtain ⟨before', rest⟩ := found
    have hf := Text.first_of_cut? hc
    obtain ⟨more, hr⟩ : ∃ more, rest = more ++ (name ++ '"' :: after) := by
      have hs : name ++ '"' :: after <:+ line := ⟨_, hl.symm⟩
      have hs' : rest <:+ line := ⟨_, hf.eq.symm⟩
      refine (List.suffix_of_suffix_length_le hs hs' ?_).imp fun more h => h.symm
      have hb := hf.le before _ hl
      have he := congrArg List.length (hl.symm.trans hf.eq)
      simp only [List.length_append] at he ⊢
      omega
    obtain ⟨name', back, he, hb⟩ := exists_last_of_mem (show '"' ∈ rest by simp [hr])
    refine ⟨name', before', back, he ▸ hf, hb, ?_⟩
    rintro rfl
    -- the last quote would be the first of the rest, and there is one behind it
    obtain ⟨c, cs, hc⟩ :=
      List.exists_cons_of_ne_nil (List.append_ne_nil_of_right_ne_nil more hn)
    rw [he, ← List.append_assoc, hc] at hr
    cases hr
    exact hb (by simp)

/-- What ends before the last quote ends behind the first, where a name is offered. -/
theorem OffersName.namesFile_of_last {line before name after : List Char} (h : OffersName line)
    (hf : First "filename=\"".toList line before (name ++ '"' :: after)) (hq : '"' ∉ after) :
    NamesFile line name := by
  refine ⟨before, after, hf, hq, ?_⟩
  rintro rfl
  obtain ⟨name, before', after', hf', -, hn⟩ := h.exists_namesFile
  obtain ⟨-, he⟩ := hf.unique hf'
  cases name with
  | nil => exact hn rfl
  | cons c name =>
    cases he
    exact hq (by simp)

theorem offersName_iff {line : List Char} : OffersName line ↔ ∃ name, NamesFile line name :=
  ⟨OffersName.exists_namesFile, fun ⟨_, h⟩ => h.offersName⟩

theorem not_offersName_of_not_mem {line : List Char} (h : '"' ∉ line) : ¬ OffersName line := by
  rintro ⟨before, name, after, rfl, -⟩
  simp at h

/-! ### Matches on a line -/

theorem matchQuote_eq_some_iff {back : List Char} {a : List (List Char) × List Char} :
    Text.Pattern.match? [.word ['"']] back = some a ↔ back = '"' :: a.2 ∧ a.1 = [] := by
  obtain ⟨runs, rest⟩ := a
  simp only [Text.Pattern.match?, Option.bind_eq_bind, Option.bind_eq_some_iff,
    Text.afterStart?_eq_some_iff, Option.some.injEq, Prod.mk.injEq]
  constructor
  · rintro ⟨_, rfl, rfl, rfl⟩
    exact ⟨rfl, rfl⟩
  · rintro ⟨rfl, rfl⟩
    exact ⟨rest, rfl, rfl, rfl⟩

theorem longest_iff {line name rest : List Char} {runs : List (List Char)} (hl : '\n' ∉ line) :
    Longest (Text.Pattern.match? [.word ['"']]) line name (runs, rest) ↔
      line = name ++ '"' :: rest ∧ name ≠ [] ∧ '"' ∉ rest ∧ runs = [] := by
  have hr (run : List Char) (a) : RunsTo (Text.Pattern.match? [.word ['"']]) line run a ↔
      line = run ++ '"' :: a.2 ∧ run ≠ [] ∧ a.1 = [] := by
    constructor
    · rintro ⟨back, rfl, hn, -, ha⟩
      obtain ⟨rfl, he⟩ := matchQuote_eq_some_iff.1 ha
      exact ⟨rfl, hn, he⟩
    · rintro ⟨rfl, hn, he⟩
      exact ⟨_, rfl, hn, fun hm => hl (List.mem_append_left _ hm),
        matchQuote_eq_some_iff.2 ⟨rfl, he⟩⟩
  constructor
  · rintro ⟨h, hle⟩
    obtain ⟨he, hn, rfl⟩ := (hr name _).1 h
    refine ⟨he, hn, fun hm => ?_, rfl⟩
    obtain ⟨front, back, rfl⟩ := List.append_of_mem hm
    have hl := hle (name ++ '"' :: front) ([], back) ((hr _ _).2 ⟨by simp [he], by simp, rfl⟩)
    rw [List.length_append, List.length_cons] at hl
    omega
  · rintro ⟨he, hn, hq, rfl⟩
    refine ⟨(hr name _).2 ⟨he, hn, rfl⟩, fun run a h => ?_⟩
    obtain ⟨he', -, -⟩ := (hr run a).1 h
    -- a longer run would end before a quote in the rest
    refine Nat.le_of_not_lt fun hlt => ?_
    obtain ⟨more, rfl⟩ := List.prefix_of_prefix_length_le ⟨_, he.symm⟩ ⟨_, he'.symm⟩
      (Nat.le_of_lt hlt)
    rw [he, List.append_assoc, List.append_cancel_left_eq] at he'
    cases more with
    | nil => simp at hlt
    | cons c more =>
      cases he'
      exact hq (by simp)

theorem match?_filenamePattern {line rest : List Char} {runs : List (List Char)}
    (hl : '\n' ∉ line) : filenamePattern.match? line = some (runs, rest) ↔
      ∃ name, line = "filename=\"".toList ++ (name ++ '"' :: rest) ∧ name ≠ [] ∧
        '"' ∉ rest ∧
        runs = [name] := by
  have hm : filenamePattern.match? line =
    (Text.afterStart? "filename=\"".toList line).bind fun cs =>
      (Text.takeRun? (Text.Pattern.match? [.word ['"']]) cs).map
        fun found => (found.1 :: found.2.1, found.2.2) := rfl
  simp only [hm, Option.bind_eq_some_iff, Text.afterStart?_eq_some_iff, Option.map_eq_some_iff,
    Prod.exists, Prod.mk.injEq, Text.takeRun?_eq_some_iff]
  constructor
  · rintro ⟨cs, rfl, name, runs', rest', h, rfl, rfl⟩
    obtain ⟨rfl, hn, hq, rfl⟩ := (longest_iff fun hm => hl (List.mem_append_right _ hm)).1 h
    exact ⟨name, rfl, hn, hq, rfl⟩
  · rintro ⟨name, rfl, hn, hq, rfl⟩
    exact ⟨_, rfl, name, [], rest,
      (longest_iff fun hm => hl (List.mem_append_right _ hm)).2 ⟨rfl, hn, hq, rfl⟩, rfl, rfl⟩

theorem findAll_of_not_offersName {line : List Char} (hl : '\n' ∉ line) (h : ¬ OffersName line) :
    filenamePattern.findAll line = [] := by
  induction line with
  | nil => rfl
  | cons c line ih =>
    have hm : filenamePattern.match? (c :: line) = none := by
      rw [Option.eq_none_iff_forall_ne_some]
      rintro ⟨runs, rest⟩ hs
      obtain ⟨name, he, hn, -⟩ := (match?_filenamePattern hl).1 hs
      exact h ⟨[], name, rest, he, hn⟩
    rw [Text.Pattern.findAll_of_no_match hm]
    apply ih fun hm => hl (List.mem_cons_of_mem c hm)
    rintro ⟨before, name, after, rfl, hn⟩
    exact h ⟨c :: before, name, after, rfl, hn⟩

theorem findAll_of_namesFile {line name : List Char} (hl : '\n' ∉ line)
    (h : NamesFile line name) : filenamePattern.findAll line = [[name]] := by
  obtain ⟨before, after, hf, hq, hn⟩ := h
  induction before generalizing line with
  | nil =>
    have he : line = 'f' :: ("ilename=\"".toList ++ name ++ ['"'] ++ after) := by
      rw [hf.eq]
      simp
    have hm : filenamePattern.match? line = some ([name], after) :=
      (match?_filenamePattern hl).2 ⟨name, hf.eq, hn, hq, rfl⟩
    have ha : '\n' ∉ after := fun hm => hl (by rw [he]; simp [hm])
    rw [he] at hm ⊢
    rw [Text.Pattern.findAll_of_match hm,
      findAll_of_not_offersName ha (not_offersName_of_not_mem hq)]
  | cons c before ih =>
    cases line with
    | nil => cases hf.eq
    | cons d line =>
      obtain ⟨hp, hf⟩ := hf.of_cons
      have hm : filenamePattern.match? (d :: line) = none := by
        rw [Option.eq_none_iff_forall_ne_some]
        rintro ⟨runs, rest⟩ hs
        obtain ⟨name', he, -⟩ := (match?_filenamePattern hl).1 hs
        exact hp ⟨_, he.symm⟩
      rw [Text.Pattern.findAll_of_no_match hm]
      exact ih (fun hm => hl (List.mem_cons_of_mem d hm)) hf

/-! ### Dispositions -/

theorem findAll_eq_flatMap (disposition : List Char) :
    filenamePattern.findAll disposition =
      (fields '\n' disposition).flatMap filenamePattern.findAll := by
  apply Text.Pattern.findAll_eq_flatMap _ rfl
  intro w hw
  simp only [filenamePattern, List.mem_cons, Text.Piece.word.injEq, reduceCtorEq, List.not_mem_nil,
    or_false, false_or] at hw
  rcases hw with rfl | rfl <;> decide

variable {lines : List (List Char)}

theorem flatMap_eq_nil_iff (hl : ∀ line ∈ lines, '\n' ∉ line) :
    lines.flatMap filenamePattern.findAll = [] ↔ ∀ line ∈ lines, ¬ OffersName line := by
  rw [List.flatMap_eq_nil_iff]
  refine forall₂_congr fun line hm => ?_
  by_cases ho : OffersName line
  · obtain ⟨name, hn⟩ := ho.exists_namesFile
    simp [findAll_of_namesFile (hl line hm) hn, ho]
  · simp [findAll_of_not_offersName (hl line hm) ho, ho]

/-- One match is found in some lines exactly if one of them offers a name and no other does. -/
theorem flatMap_eq_singleton_iff (hl : ∀ line ∈ lines, '\n' ∉ line) {name : List Char} :
    lines.flatMap filenamePattern.findAll = [[name]] ↔
      ∃ front line back, lines = front ++ line :: back ∧ NamesFile line name ∧
        ∀ other ∈ front ++ back, ¬ OffersName other := by
  induction lines with
  | nil => simp
  | cons first lines ih =>
    obtain ⟨hf, hl⟩ := List.forall_mem_cons.1 hl
    rw [List.flatMap_cons]
    by_cases ho : OffersName first
    · obtain ⟨found, hn⟩ := ho.exists_namesFile
      rw [findAll_of_namesFile hf hn, List.singleton_append, List.cons.injEq, flatMap_eq_nil_iff hl]
      constructor
      · rintro ⟨he, hr⟩
        cases he
        exact ⟨[], first, lines, rfl, hn, hr⟩
      · rintro ⟨front, line, back, he, hn', hr⟩
        cases front with
        | nil =>
          cases he
          refine ⟨?_, hr⟩
          have hu := (findAll_of_namesFile hf hn).symm.trans (findAll_of_namesFile hf hn')
          exact (List.cons.inj hu).1
        | cons other front =>
          cases he
          exact absurd ho (hr first List.mem_cons_self)
    · rw [findAll_of_not_offersName hf ho, List.nil_append, ih hl]
      constructor
      · rintro ⟨front, line, back, rfl, hn, hr⟩
        exact ⟨first :: front, line, back, rfl, hn, List.forall_mem_cons.2 ⟨ho, hr⟩⟩
      · rintro ⟨front, line, back, he, hn, hr⟩
        cases front with
        | nil =>
          cases he
          exact absurd hn.offersName ho
        | cons other front =>
          cases he
          exact ⟨front, line, back, rfl, hn, (List.forall_mem_cons.1 hr).2⟩

theorem filename_cases (disposition : List Char) :
    (∃ name, filename disposition = .ok name) ∨ filename disposition = .error .noFilename := by
  rw [filename]
  split
  · next name _ => exact .inl ⟨name, rfl⟩
  · exact .inr rfl

theorem filename_eq_ok_iff_findAll {disposition name : List Char} :
    filename disposition = .ok name ↔ filenamePattern.findAll disposition = [[name]] := by
  rw [filename]
  split
  · next found hf => simp [hf]
  · next hn => simpa using hn name

theorem filename_eq_ok_iff {disposition name : List Char} :
    filename disposition = .ok name ↔ NamesOneFile disposition name := by
  rw [filename_eq_ok_iff_findAll, findAll_eq_flatMap,
    flatMap_eq_singleton_iff fun line hm => Text.not_mem_of_mem_fields hm]
  simp only [NamesOneFile, offersName_iff, not_exists]

/-- A name is given exactly where one line offers one and no other line does. It is what stands on
that line between the first opening and the last quote. In every other case none is given. -/
theorem filename_of_only_offer (disposition : List Char) :
    (∀ name, filename disposition = .ok name ↔
      ∃ front line back, fields '\n' disposition = front ++ line :: back ∧ OffersName line ∧
        (∀ other ∈ front ++ back, ¬ OffersName other) ∧
        ∃ before after, First "filename=\"".toList line before (name ++ '"' :: after) ∧
          '"' ∉ after) ∧
    (filename disposition = .error .noFilename ↔
      ¬ ∃ front line back, fields '\n' disposition = front ++ line :: back ∧
        OffersName line ∧
        ∀ other ∈ front ++ back, ¬ OffersName other) := by
  have hok (name : List Char) : filename disposition = .ok name ↔
      ∃ front line back, fields '\n' disposition = front ++ line :: back ∧ OffersName line ∧
        (∀ other ∈ front ++ back, ¬ OffersName other) ∧
        ∃ before after, First "filename=\"".toList line before (name ++ '"' :: after) ∧
          '"' ∉ after := by
    simp only [filename_eq_ok_iff, NamesOneFile, ← not_exists, ← offersName_iff]
    constructor
    · rintro ⟨front, line, back, he, hn, hr⟩
      obtain ⟨before, after, hf, hq, -⟩ := id hn
      exact ⟨front, line, back, he, hn.offersName, hr, before, after, hf, hq⟩
    · rintro ⟨front, line, back, he, ho, hr, before, after, hf, hq⟩
      exact ⟨front, line, back, he, ho.namesFile_of_last hf hq, hr⟩
  refine ⟨hok, ?_⟩
  constructor
  · rintro hn ⟨front, line, back, he, ho, hr⟩
    obtain ⟨name, before, after, hf, hq, -⟩ := ho.exists_namesFile
    cases hn.symm.trans ((hok name).2 ⟨front, line, back, he, ho, hr, before, after, hf, hq⟩)
  · intro hn
    rcases filename_cases disposition with ⟨name, hf⟩ | hf
    · obtain ⟨front, line, back, he, ho, hr, -⟩ := (hok name).1 hf
      exact absurd ⟨front, line, back, he, ho, hr⟩ hn
    · exact hf

end RemoteCall.Multipart
