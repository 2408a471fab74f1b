import RemoteCall.Proofs.Text.Cut
import RemoteCall.Text.Blank

/-! What cutting text at single characters and at line ends yields, and what trimming leaves. -/

namespace RemoteCall.Text

/-! ### Single characters -/

theorem splitAt?_eq_some_iff {sep : Char} {cs before after : List Char} :
    splitAt? sep cs = some (before, after) ↔ cs = before ++ sep :: after ∧ sep ∉ before := by
  induction cs generalizing before with
  | nil => simp [splitAt?]
  | cons c cs ih =>
    by_cases h : c = sep
    · subst h
      cases before with
      | nil => simp [splitAt?]
      | cons b before =>
        simp only [splitAt?, if_true, Option.some.injEq, Prod.mk.injEq, List.cons_append,
          List.cons.injEq, List.mem_cons, not_or]
        constructor
        · rintro ⟨h, -⟩
          cases h
        · rintro ⟨⟨rfl, -⟩, h, -⟩
          exact absurd rfl h
    · cases before with
      | nil => simp [splitAt?, h]
      | cons b before =>
        simp only [splitAt?, h, if_false, Option.map_eq_some_iff, Prod.exists, Prod.mk.injEq,
          List.cons_append, List.cons.injEq, List.mem_cons, not_or]
        constructor
        · rintro ⟨b', a', hc, ⟨rfl, rfl⟩, rfl⟩
          obtain ⟨rfl, hb⟩ := ih.1 hc
          exact ⟨⟨rfl, rfl⟩, Ne.symm h, hb⟩
        · rintro ⟨⟨rfl, rfl⟩, -, hb⟩
          exact ⟨before, after, ih.2 ⟨rfl, hb⟩, ⟨rfl, rfl⟩, rfl⟩

theorem splitAt?_append_cons {sep : Char} {before : List Char} (h : sep ∉ before)
    (after : List Char) : splitAt? sep (before ++ sep :: after) = some (before, after) :=
  splitAt?_eq_some_iff.2 ⟨rfl, h⟩

theorem fields_of_not_mem {sep : Char} {cs : List Char} (h : sep ∉ cs) :
    fields sep cs = [cs] := by
  induction cs with
  | nil => rfl
  | cons c cs ih =>
    simp only [List.mem_cons, not_or] at h
    rw [fields, if_neg (Ne.symm h.1), ih h.2]
    rfl

theorem fields_append_cons {sep : Char} {before : List Char} (h : sep ∉ before)
    (after : List Char) : fields sep (before ++ sep :: after) = before :: fields sep after := by
  induction before with
  | nil => simp [fields]
  | cons c before ih =>
    simp only [List.mem_cons, not_or] at h
    rw [List.cons_append, fields, if_neg (Ne.symm h.1), ih h.2]
    rfl

theorem exists_fields_eq_cons (sep : Char) (cs : List Char) :
    ∃ piece rest, fields sep cs = piece :: rest := by
  cases cs with
  | nil => exact ⟨_, _, rfl⟩
  | cons c cs =>
    rw [fields]
    split
    · exact ⟨_, _, rfl⟩
    · cases fields sep cs <;> exact ⟨_, _, rfl⟩

theorem headD_fields (sep : Char) (cs : List Char) :
    (fields sep cs).headD [] = cs.takeWhile (· ≠ sep) := by
  induction cs with
  | nil => rfl
  | cons c cs ih =>
    obtain ⟨piece, rest, hf⟩ := exists_fields_eq_cons sep cs
    rw [hf] at ih
    by_cases hc : c = sep
    · simp [fields, hc]
    · simpa [fields, hf, hc, extendHead] using ih

theorem fields_append_sep (sep : Char) (xs ys : List Char) :
    fields sep (xs ++ sep :: ys) = fields sep xs ++ fields sep ys := by
  induction xs with
  | nil => simp [fields]
  | cons x xs ih =>
    obtain ⟨piece, rest, hf⟩ := exists_fields_eq_cons sep xs
    simp only [List.cons_append, fields, ih, hf]
    split <;> rfl

theorem fields_intercalate {sep : Char} {pieces : List (List Char)}
    (h : ∀ piece ∈ pieces, sep ∉ piece) (hn : pieces ≠ []) :
    fields sep ([sep].intercalate pieces) = pieces := by
  induction pieces with
  | nil => exact absurd rfl hn
  | cons piece pieces ih =>
    have hp := h piece List.mem_cons_self
    cases pieces with
    | nil => rw [List.intercalate_singleton, fields_of_not_mem hp]
    | cons next pieces =>
      have ht := ih (fun p hm => h p (List.mem_cons_of_mem piece hm)) (List.cons_ne_nil next pieces)
      rw [List.intercalate_cons_cons, List.append_assoc, List.singleton_append,
        fields_append_cons hp, ht]

theorem not_mem_of_mem_fields {sep : Char} {cs piece : List Char} (h : piece ∈ fields sep cs) :
    sep ∉ piece := by
  induction cs generalizing piece with
  | nil => simp_all [fields]
  | cons c cs ih =>
    rw [fields] at h
    split at h
    · cases List.mem_cons.1 h with
      | inl he => simp [he]
      | inr hm => exact ih hm
    · next hc =>
      obtain ⟨first, rest, hf⟩ := exists_fields_eq_cons sep cs
      rw [hf, extendHead] at h
      cases List.mem_cons.1 h with
      | inl he =>
        rw [he, List.mem_cons, not_or]
        exact ⟨Ne.symm hc, ih (hf ▸ List.mem_cons_self)⟩
      | inr hm => exact ih (hf ▸ List.mem_cons_of_mem first hm)

/-! ### Lines -/

abbrev lineEnd : List Char := ['\r', '\n']

theorem not_lineEnd_infix_of_not_mem {cs : List Char} (h : '\r' ∉ cs) : ¬ lineEnd <:+: cs :=
  fun hi => h (hi.subset List.mem_cons_self)

theorem crlfLines_cons {c : Char} {cs : List Char} (h : ¬ lineEnd <+: c :: cs) :
    crlfLines (c :: cs) = extendHead c (crlfLines cs) := by
  rw [crlfLines]
  rintro cs rfl rfl
  exact h ⟨cs, rfl⟩

theorem crlfLines_of_not_infix {cs : List Char} (h : ¬ lineEnd <:+: cs) : crlfLines cs = [cs] := by
  induction cs with
  | nil => rfl
  | cons c cs ih =>
    rw [List.infix_cons_iff, not_or] at h
    rw [crlfLines_cons h.1, ih h.2]
    rfl

theorem crlfLines_append {line : List Char} (h : ¬ lineEnd <:+: line) (rest : List Char) :
    crlfLines (line ++ lineEnd ++ rest) = line :: crlfLines rest := by
  induction line with
  | nil => rfl
  | cons c line ih =>
    rw [List.infix_cons_iff, not_or] at h
    have hp : ¬ lineEnd <+: c :: (line ++ lineEnd ++ rest) := by
      rintro ⟨t, ht⟩
      cases line with
      | nil => cases ht
      | cons d line =>
        cases ht
        exact h.1 ⟨line, rfl⟩
    rw [List.cons_append, List.cons_append, crlfLines_cons hp, ih h.2]
    rfl

theorem intercalate_append {α : Type} (sep : List α) {xs ys : List (List α)} (hx : xs ≠ [])
    (hy : ys ≠ []) :
    sep.intercalate (xs ++ ys) = sep.intercalate xs ++ sep ++ sep.intercalate ys := by
  induction xs with
  | nil => exact absurd rfl hx
  | cons x xs ih =>
    by_cases hn : xs = []
    · rw [hn, List.singleton_append, List.intercalate_cons_of_ne_nil hy,
        List.intercalate_singleton]
    · rw [List.cons_append,
        List.intercalate_cons_of_ne_nil (List.append_ne_nil_of_left_ne_nil hn ys), ih hn,
        List.intercalate_cons_of_ne_nil hn]
      simp only [List.append_assoc]

/-- The lines of a text: none has a line end in it, and with one between each two they are the
text. -/
structure Lines (cs : List Char) (lines : List (List Char)) : Prop where
  ne_nil : lines ≠ []
  unbroken : ∀ line ∈ lines, ¬ lineEnd <:+: line
  joined : lineEnd.intercalate lines = cs

theorem Lines.crlfLines_eq {cs : List Char} {lines : List (List Char)} (h : Lines cs lines) :
    crlfLines cs = lines := by
  obtain ⟨hn, hu, rfl⟩ := h
  induction lines with
  | nil => exact absurd rfl hn
  | cons line lines ih =>
    have hl := hu line List.mem_cons_self
    cases lines with
    | nil => simpa using crlfLines_of_not_infix hl
    | cons next lines =>
      have ht := ih (List.cons_ne_nil next lines) fun l hm => hu l (List.mem_cons_of_mem line hm)
      rw [List.intercalate_cons_cons, crlfLines_append hl, ht]

theorem lines_crlfLines (cs : List Char) : Lines cs (crlfLines cs) := by
  fun_induction crlfLines cs with
  | case1 => exact ⟨List.cons_ne_nil _ _, by simp, rfl⟩
  | case2 cs ih =>
    refine ⟨List.cons_ne_nil _ _, ?_, ?_⟩
    · intro line hm
      cases List.mem_cons.1 hm with
      | inl h => simp [h]
      | inr h => exact ih.unbroken line h
    · rw [List.intercalate_cons_of_ne_nil ih.ne_nil, ih.joined]
      rfl
  | case3 c cs hc ih =>
    obtain ⟨line, lines, hl⟩ := List.exists_cons_of_ne_nil ih.ne_nil
    rw [hl] at ih ⊢
    have hp : line <+: cs := by
      rw [← ih.joined]
      cases lines with
      | nil => simp
      | cons next lines => simp [List.intercalate_cons_cons]
    refine ⟨List.cons_ne_nil _ _, ?_, ?_⟩
    · intro l hm
      cases List.mem_cons.1 hm with
      | inl h =>
        rw [h, List.infix_cons_iff, not_or]
        refine ⟨?_, ih.unbroken line List.mem_cons_self⟩
        rintro ⟨t, ht⟩
        cases ht
        obtain ⟨u, hu⟩ := hp
        exact hc (t ++ u) rfl hu.symm
      | inr h => exact ih.unbroken l (List.mem_cons_of_mem line h)
    · rw [extendHead, List.intercalate_cons_cons_left, ih.joined]

section Runs

variable {α : Type} {p : α → Bool}

/-! ### Runs of like elements -/

theorem takeWhile_append_eq_left {xs ys : List α} (hx : ∀ x ∈ xs, p x = true)
    (hy : ∀ y ∈ ys.head?, p y = false) : (xs ++ ys).takeWhile p = xs := by
  rw [List.takeWhile_append_of_pos hx]
  cases ys with
  | nil => rw [List.takeWhile_nil, List.append_nil]
  | cons y ys => rw [List.takeWhile_cons_of_neg (by simp [hy y rfl]), List.append_nil]

theorem dropWhile_append_eq_right {xs ys : List α} (hx : ∀ x ∈ xs, p x = true)
    (hy : ∀ y ∈ ys.head?, p y = false) : (xs ++ ys).dropWhile p = ys := by
  rw [List.dropWhile_append_of_pos hx]
  cases ys with
  | nil => rfl
  | cons y ys => rw [List.dropWhile_cons_of_neg (by simp [hy y rfl])]

/-! ### Trimming -/

theorem dropEndWhile_concat {x : α} (h : p x = false) (xs : List α) :
    dropEndWhile p (xs ++ [x]) = xs ++ [x] := by
  simp [dropEndWhile, h]

theorem dropEndWhile_append_cons {x : α} (h : p x = false) (xs ys : List α) :
    dropEndWhile p (xs ++ x :: ys) = xs ++ x :: dropEndWhile p ys := by
  rw [dropEndWhile, dropEndWhile, List.reverse_append, List.reverse_cons, List.append_assoc,
    List.dropWhile_append]
  split
  · next he => simp [List.isEmpty_iff.1 he, h]
  · simp

theorem prefix_dropEndWhile {xs : List α} (hl : ∀ x ∈ xs.getLast?, p x = false)
    (ys : List α) : xs <+: dropEndWhile p (xs ++ ys) := by
  cases List.eq_nil_or_concat xs with
  | inl h => exact h ▸ List.nil_prefix
  | inr h =>
    obtain ⟨zs, z, rfl⟩ := h
    rw [List.concat_eq_append] at hl ⊢
    rw [List.append_assoc, List.singleton_append, dropEndWhile_append_cons (hl z (by simp))]
    exact List.prefix_append_right_inj zs |>.2 (List.prefix_append [z] _)

theorem dropBothWhile_cons_of_pos {x : α} (h : p x = true) (xs : List α) :
    dropBothWhile p (x :: xs) = dropBothWhile p xs := by
  simp [dropBothWhile, h]

theorem dropBothWhile_eq_self {xs : List α} (hh : ∀ x ∈ xs.head?, p x = false)
    (hl : ∀ x ∈ xs.getLast?, p x = false) : dropBothWhile p xs = xs := by
  have hd : xs.dropWhile p = xs := by
    cases xs with
    | nil => rfl
    | cons x xs => simp [hh x rfl]
  rw [dropBothWhile, hd]
  cases List.eq_nil_or_concat xs with
  | inl h => rw [h]; rfl
  | inr h =>
    obtain ⟨ys, y, rfl⟩ := h
    rw [List.concat_eq_append] at hl ⊢
    exact dropEndWhile_concat (hl y (by simp)) ys

theorem not_of_dropWhile_eq_self {xs : List α} (h : xs.dropWhile p = xs) :
    ∀ x ∈ xs.head?, p x = false := by
  intro x hx
  rw [Bool.eq_false_iff]
  intro hp
  cases xs with
  | nil => cases hx
  | cons y ys =>
    cases hx
    rw [List.dropWhile_cons_of_pos hp] at h
    have hl := (List.dropWhile_sublist (l := ys) p).length_le
    rw [h, List.length_cons] at hl
    omega

theorem dropWhile_eq_self_of_both {xs : List α} (h : dropBothWhile p xs = xs) :
    xs.dropWhile p = xs := by
  refine (List.dropWhile_sublist p).eq_of_length_le ?_
  have hl := (List.dropWhile_sublist (l := (xs.dropWhile p).reverse) p).length_le
  have he := congrArg List.length h
  rw [dropBothWhile, dropEndWhile, List.length_reverse] at he
  rw [List.length_reverse] at hl
  omega

theorem not_head_of_dropBothWhile_eq_self {xs : List α} (h : dropBothWhile p xs = xs) :
    ∀ x ∈ xs.head?, p x = false :=
  not_of_dropWhile_eq_self (dropWhile_eq_self_of_both h)

theorem not_last_of_dropBothWhile_eq_self {xs : List α} (h : dropBothWhile p xs = xs) :
    ∀ x ∈ xs.getLast?, p x = false := by
  rw [← List.head?_reverse]
  apply not_of_dropWhile_eq_self
  rw [dropBothWhile, dropWhile_eq_self_of_both h, dropEndWhile] at h
  rw [← List.reverse_reverse (xs.reverse.dropWhile p), h]

theorem dropBothWhile_append_of_pos {xs ys : List α} (h : ∀ y ∈ ys, p y = true) :
    dropBothWhile p (xs ++ ys) = dropBothWhile p xs := by
  have hy : (ys ++ []).dropWhile p = [] := List.dropWhile_append_of_pos h
  rw [List.append_nil] at hy
  rw [dropBothWhile, dropBothWhile, List.dropWhile_append]
  split
  · next he => rw [List.isEmpty_iff.1 he, hy]
  · rw [dropEndWhile, List.reverse_append,
      List.dropWhile_append_of_pos fun y hy => h y (List.mem_reverse.1 hy)]
    rfl

theorem dropBothWhile_between {before xs after : List α} (hb : ∀ x ∈ before, p x = true)
    (ha : ∀ x ∈ after, p x = true) (hh : ∀ x ∈ xs.head?, p x = false)
    (hl : ∀ x ∈ xs.getLast?, p x = false) : dropBothWhile p (before ++ xs ++ after) = xs := by
  rw [dropBothWhile_append_of_pos ha, dropBothWhile, List.dropWhile_append_of_pos hb]
  exact dropBothWhile_eq_self hh hl

theorem dropBothWhile_between_of_not_mem [BEq α] [LawfulBEq α] {x : α}
    {before xs after : List α} (hx : x ∉ xs) (hb : ∀ y ∈ before, y = x)
    (ha : ∀ y ∈ after, y = x) :
    dropBothWhile (· == x) (before ++ xs ++ after) = xs := by
  have hn : ∀ y ∈ xs, (y == x) = false := fun y hy => beq_false_of_ne fun he => hx (he ▸ hy)
  refine dropBothWhile_between ?_ ?_ (fun y hy => hn y (List.mem_of_mem_head? hy))
    fun y hy => hn y (List.mem_of_getLast? hy)
  · exact fun y hy => beq_iff_eq.2 (hb y hy)
  · exact fun y hy => beq_iff_eq.2 (ha y hy)

theorem exists_around_dropBothWhile (p : α → Bool) (xs : List α) :
    ∃ before after, xs = before ++ dropBothWhile p xs ++ after ∧
      (∀ x ∈ before, p x = true) ∧ ∀ x ∈ after, p x = true := by
  have hall (ys : List α) : ∀ x ∈ ys.takeWhile p, p x = true :=
    List.all_eq_true.1 List.all_takeWhile
  refine ⟨xs.takeWhile p, ((xs.dropWhile p).reverse.takeWhile p).reverse, ?_, hall xs, ?_⟩
  · rw [List.append_assoc, dropBothWhile, dropEndWhile, ← List.reverse_append,
      List.takeWhile_append_dropWhile, List.reverse_reverse, List.takeWhile_append_dropWhile]
  · exact fun x hx => hall _ x (List.mem_reverse.1 hx)

theorem mem_dropWhile {x : α} (h : p x = false) {xs : List α} (hm : x ∈ xs) :
    x ∈ xs.dropWhile p := by
  induction xs with
  | nil => exact hm
  | cons y xs ih =>
    cases hy : p y with
    | false => rwa [List.dropWhile_cons_of_neg (by simp [hy])]
    | true =>
      rw [List.dropWhile_cons_of_pos hy]
      cases List.mem_cons.1 hm with
      | inl hxy => simp [hxy, hy] at h
      | inr hxs => exact ih hxs

theorem mem_dropBothWhile {x : α} (h : p x = false) {xs : List α} (hm : x ∈ xs) :
    x ∈ dropBothWhile p xs :=
  List.mem_reverse.2 (mem_dropWhile h (List.mem_reverse.2 (mem_dropWhile h hm)))

end Runs

/-! ### Texts between blanks -/

/-- The code points with the property White_Space. -/
def whiteSpace : List Nat :=
  [9, 10, 11, 12, 13, 32, 133, 160, 5760, 8192, 8193, 8194, 8195, 8196, 8197, 8198, 8199, 8200,
   8201, 8202, 8232, 8233, 8239, 8287, 12288]

/-- White space before and after a text, in any amount. -/
def Framed (cs inner : List Char) : Prop :=
  ∃ before after, cs = before ++ inner ++ after ∧
    (∀ c ∈ before, c.toNat ∈ whiteSpace) ∧ ∀ c ∈ after, c.toNat ∈ whiteSpace

theorem framed_self (cs : List Char) : Framed cs cs :=
  ⟨[], [], (List.append_nil cs).symm, List.forall_mem_nil _, List.forall_mem_nil _⟩

theorem isBlank_iff {c : Char} : isBlank c = true ↔ c.toNat ∈ whiteSpace := by
  simp only [isBlank, whiteSpace, Bool.or_eq_true, Bool.and_eq_true, decide_eq_true_eq,
    beq_iff_eq, List.mem_cons, List.not_mem_nil, or_false]
  omega

/-- Trimming finds the text, for all blanks at its ends are the frame. -/
theorem framed_iff_trim {cs inner : List Char} (h : ∀ c ∈ inner, isBlank c = false) :
    Framed cs inner ↔ trim cs = inner := by
  simp only [Framed, ← isBlank_iff]
  constructor
  · rintro ⟨before, after, rfl, hb, ha⟩
    exact dropBothWhile_between hb ha (fun c hc => h c (List.mem_of_mem_head? hc))
      fun c hc => h c (List.mem_of_getLast? hc)
  · rintro rfl
    exact exists_around_dropBothWhile isBlank cs

end RemoteCall.Text
