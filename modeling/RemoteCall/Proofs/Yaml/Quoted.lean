import RemoteCall.Proofs.Numeric.Digits
import RemoteCall.Proofs.Yaml.Plain

/-!
Reading text in double quotes. Nothing but a space ends a word inside the quotes, since every other
gap is escaped there, and a run of spaces is read as it is.
-/

namespace RemoteCall.Yaml

open Text (takeWhile_append_eq_left dropWhile_append_eq_right)

variable {c : Char} {cs rest : List Char} {m : Mark} {gs : List Glyph}

/-! ### Single characters -/

theorem needsEscape_toNat_lt (h : needsEscape c = true) : c.toNat < 65536 := by
  simp only [needsEscape, Text.isControl, Bool.or_eq_true, Bool.and_eq_true,
    decide_eq_true_eq] at h
  rcases h with ((h | rfl) | rfl) | rfl
  · omega
  all_goals decide

theorem isSpace_eq_true_iff : isSpace c = true ↔
    c = ' ' ∨ c = '\t' ∨ c = '\n' ∨ c = '\u2028' ∨ c = '\u2029' ∨ c = '\x00' := by
  have hd : (c = terminator) = (c = '\x00') := rfl
  simp only [isSpace, isBlank, isBreak, Bool.or_eq_true, decide_eq_true_eq, or_assoc, hd]

/-- Every gap but the space is escaped. -/
theorem isSpace_of_raw (h : needsEscape c = false) (hs : c ≠ ' ') : isSpace c = false := by
  rw [Bool.eq_false_iff]
  intro hc
  rcases isSpace_eq_true_iff.1 hc with rfl | rfl | rfl | rfl | rfl | rfl
  · exact hs rfl
  all_goals cases h

theorem onLine_of_raw (h : needsEscape c = false) : OnLine c := by
  by_cases hs : c = ' '
  · exact hs ▸ onLine_space
  · have hn := isSpace_of_raw h hs
    simp only [isSpace, Bool.or_eq_false_iff] at hn
    refine ⟨?_, hn.1.2⟩
    rw [Bool.eq_false_iff]
    intro hc
    simp only [isOtherBreak, Bool.or_eq_true, decide_eq_true_eq] at hc
    rcases hc with rfl | rfl <;> cases h

theorem charOf?_toNat (c : Char) : charOf? c.toNat = some c := by
  have hv : c.toNat < 0xD800 ∨ 0xDFFF < c.toNat ∧ c.toNat < 0x110000 := c.valid
  rw [charOf?, if_pos (by omega), Char.ofNat_toNat]

theorem digit?_upperDigit {n : Nat} (h : n < 16) : Numeric.digit? 16 (upperDigit n) = some n := by
  have hv : ∀ n < 16, Numeric.digit? 16 (upperDigit n) = some n := by decide
  exact hv n h

/-- The digits of a number of sixteen bits. -/
def fourDigits (n : Nat) : List Char :=
  [upperDigit (n / 4096), upperDigit (n / 256 % 16), upperDigit (n / 16 % 16), upperDigit (n % 16)]

theorem natOfDigits?_fourDigits {n : Nat} (h : n < 65536) :
    Numeric.natOfDigits? 16 (fourDigits n) = some n := by
  have h₁ := digit?_upperDigit (n := n / 4096) (by omega)
  have h₂ := digit?_upperDigit (n := n / 256 % 16) (by omega)
  have h₃ := digit?_upperDigit (n := n / 16 % 16) (by omega)
  have h₄ := digit?_upperDigit (n := n % 16) (by omega)
  simp only [Numeric.natOfDigits?, fourDigits, List.isEmpty_cons, Bool.false_eq_true, if_false,
    List.foldlM_cons, List.foldlM_nil, h₁, h₂, h₃, h₄, Option.map_some, Option.bind_eq_bind,
    Option.bind_some]
  congr 1
  omega

theorem doubleWord_escape {e : Char} (he : escape? e = some c) (hb : isBreak e = false) (m : Mark)
    (gs : List Glyph) : doubleWord 0 (row m ['\\', e] ++ gs) =
      (doubleWord 0 gs).map fun (word, r) => (c :: word, r) := by
  have hs : (isSpace '\\' || decide ('\\' = '"')) = false := by decide
  simp only [row, List.cons_append, List.nil_append]
  rw [doubleWord]
  simp only [hs, he, hb, if_true, Bool.false_eq_true, if_false]

theorem doubleWord_number (h : needsEscape c = true) (m : Mark) (gs : List Glyph) :
    doubleWord 0 (row m ('\\' :: 'u' :: fourDigits c.toNat) ++ gs) =
      (doubleWord 0 gs).map fun (word, r) => (c :: word, r) := by
  have hs : (isSpace '\\' || decide ('\\' = '"')) = false := by decide
  have hb : isBreak 'u' = false := by decide
  have hu : escape? 'u' = none := rfl
  have hl : escapeLength? 'u' = some 4 := rfl
  have hn : ∀ m, escapedNumber? 4 (row m (fourDigits c.toNat) ++ gs) = some c := by
    intro m
    have ht : (row m (fourDigits c.toNat) ++ gs).take 4 = row m (fourDigits c.toNat) :=
      List.take_left' (length_row m _)
    simp only [escapedNumber?, ht, map_char_row, natOfDigits?_fourDigits (needsEscape_toNat_lt h)]
    exact charOf?_toNat c
  simp only [row, List.cons_append]
  rw [doubleWord]
  simp only [hs, hb, hu, hl, hn, if_true, Bool.false_eq_true, if_false]
  rfl

theorem doubleWord_raw (hs : isSpace c = false) (hq : c ≠ '"') (hb : c ≠ '\\') (m : Mark)
    (hg : gs ≠ []) : doubleWord 0 (row m [c] ++ gs) =
      (doubleWord 0 gs).map fun (word, r) => (c :: word, r) := by
  obtain ⟨e, gs, rfl⟩ := List.exists_cons_of_ne_nil hg
  simp only [row, List.cons_append, List.nil_append]
  rw [doubleWord]
  simp [hs, hq, hb]

/-- Each way to write a character inside quotes is read as that character. -/
theorem doubleWord_quotedChar (hs : c ≠ ' ') (m : Mark) (hg : gs ≠ []) :
    doubleWord 0 (row m (quotedChar c) ++ gs) =
      (doubleWord 0 gs).map fun (word, r) => (c :: word, r) := by
  by_cases hq : c = '"'
  · subst hq
    exact doubleWord_escape rfl (by decide) m gs
  by_cases hb : c = '\\'
  · subst hb
    exact doubleWord_escape rfl (by decide) m gs
  simp only [quotedChar, hq, hb, if_false]
  split
  · next h => exact h ▸ doubleWord_escape rfl (by decide) m gs
  split
  · next h => exact h ▸ doubleWord_escape rfl (by decide) m gs
  split
  · next h => exact h ▸ doubleWord_escape rfl (by decide) m gs
  split
  · next h => exact doubleWord_number h m gs
  · next h =>
    have hn : needsEscape c = false := by simpa using h
    exact doubleWord_raw (isSpace_of_raw hn hs) hq hb m hg

/-- The characters of escapes. -/
def escapeAlphabet : List Char := "\\\"ntru0123456789ABCDEF".toList

theorem mem_fourDigits {n : Nat} (h : n < 65536) {d : Char} (hd : d ∈ fourDigits n) :
    d ∈ escapeAlphabet := by
  have hv : ∀ n < 16, upperDigit n ∈ escapeAlphabet := by decide
  simp only [fourDigits, List.mem_cons, List.not_mem_nil, or_false] at hd
  rcases hd with rfl | rfl | rfl | rfl <;> exact hv _ (by omega)

/-- What is written for a character is an escape, or the character itself. -/
theorem mem_quotedChar {d : Char} (h : d ∈ quotedChar c) :
    d ∈ escapeAlphabet ∨ d = c ∧ needsEscape c = false := by
  have hp {e : Char} (he : e ∈ escapeAlphabet) : ∀ d ∈ ['\\', e], d ∈ escapeAlphabet :=
    List.forall_mem_cons.2 ⟨by decide, List.forall_mem_singleton.2 he⟩
  unfold quotedChar at h
  split at h
  · exact .inl (hp (by decide) d h)
  split at h
  · exact .inl (hp (by decide) d h)
  split at h
  · exact .inl (hp (by decide) d h)
  split at h
  · exact .inl (hp (by decide) d h)
  split at h
  · exact .inl (hp (by decide) d h)
  split at h
  · next hn =>
    have hd : d = '\\' ∨ d = 'u' ∨ d ∈ fourDigits c.toNat := by simpa [fourDigits] using h
    rcases hd with rfl | rfl | hd
    · exact .inl (by decide)
    · exact .inl (by decide)
    · exact .inl (mem_fourDigits (needsEscape_toNat_lt hn) hd)
  · next hn => exact .inr ⟨List.mem_singleton.1 h, by simpa using hn⟩

theorem onLine_quotedChar (c : Char) : ∀ d ∈ quotedChar c, OnLine d := by
  have hv : ∀ d ∈ escapeAlphabet, isOtherBreak d = false ∧ isBreak d = false :=
    List.all_iff_forall_prop.1 (by decide)
  intro d hd
  rcases mem_quotedChar hd with h | ⟨rfl, h⟩
  · exact ⟨(hv d h).1, (hv d h).2⟩
  · exact onLine_of_raw h

/-! ### Words and gaps -/

/-- Text between quotes. -/
def inside (cs : List Char) : List Char := cs.flatMap quotedChar

theorem onLine_inside (cs : List Char) : ∀ c ∈ inside cs, OnLine c := by
  intro c hc
  obtain ⟨d, -, hd⟩ := List.mem_flatMap.1 hc
  exact onLine_quotedChar d c hd

theorem doubleWord_inside {w : List Char} (hw : ' ' ∉ w) (hg : gs ≠ [])
    (he : doubleWord 0 gs = .ok ([], false, gs)) (m : Mark) :
    doubleWord 0 (row m (inside w) ++ gs) = .ok (w, false, gs) := by
  induction w generalizing m with
  | nil => exact he
  | cons c w ih =>
    rw [List.mem_cons, not_or] at hw
    rw [inside, List.flatMap_cons, row_append, List.append_assoc,
      doubleWord_quotedChar (Ne.symm hw.1) m (by simp [hg]), ← inside, ih hw.2]
    rfl

theorem exists_padding (cs : List Char) :
    ∃ n ds, cs = padding n ++ ds ∧ ∀ d ∈ ds.head?, d ≠ ' ' := by
  induction cs with
  | nil => exact ⟨0, [], rfl, fun _ h => nomatch h⟩
  | cons c cs ih =>
    by_cases hc : c = ' '
    · obtain ⟨n, ds, rfl, hd⟩ := ih
      exact ⟨n + 1, ds, by rw [hc]; rfl, hd⟩
    · refine ⟨0, c :: cs, rfl, ?_⟩
      intro d hd
      cases hd
      exact hc

/-- Text with a space in it is a word, a gap, and text that begins with none. -/
theorem exists_gap (h : ' ' ∈ cs) :
    ∃ w n ds, cs = w ++ (padding (n + 1) ++ ds) ∧ ' ' ∉ w ∧
    ∀ d ∈ ds.head?, d ≠ ' ' := by
  obtain ⟨w, rest, rfl, hw⟩ := List.eq_append_cons_of_mem h
  obtain ⟨n, ds, rfl, hd⟩ := exists_padding rest
  exact ⟨w, n, ds, rfl, hw, hd⟩

theorem inside_padding (n : Nat) : inside (padding n) = padding n := by
  induction n with
  | zero => rfl
  | succ n ih =>
    rw [padding_succ, inside, List.flatMap_cons, ← inside, ih]
    rfl

theorem not_terminator_inside {d : Char} (h : d ∈ inside cs) : d ≠ terminator := by
  obtain ⟨c, -, hd⟩ := List.mem_flatMap.1 h
  rintro rfl
  rcases mem_quotedChar hd with h | ⟨rfl, h⟩ <;> revert h <;> decide

theorem peek_inside (m : Mark) (cs rest : List Char) :
    peek (glyphsFrom m (inside cs ++ '"' :: rest)) 0 ≠ terminator := by
  cases h : inside cs with
  | nil => exact (by decide : '"' ≠ terminator)
  | cons c ds =>
    have hc : c ∈ inside cs := h ▸ List.mem_cons_self
    rw [List.cons_append, peek_glyphsFrom_cons (onLine_inside cs c hc)]
    exact not_terminator_inside hc

/-- A word, and the gap and words behind it where the closing quote does not follow. -/
theorem quotedFrom_word {w : List Char} {after : List Glyph} (hi : Inside gs)
    (ht : peek gs 0 ≠ terminator) (hw : doubleWord 0 gs = .ok (w, false, after)) (steps : Nat) :
    quotedFrom true (steps + 1) gs =
      if peek after 0 = '"' then .ok (w, after.drop 1)
      else
        (quotedFrom true steps (after.dropWhile isGapGlyph)).map fun (more, rest) =>
          (w ++ foldGap (after.takeWhile isGapGlyph) ++ more, rest) := by
  unfold isGapGlyph
  rw [quotedFrom]
  simp only [hi.noStart, hi.noEnd, ht, hw, bind, Except.bind, Bool.or_self, Bool.false_eq_true,
    if_true, if_false]
  split
  · rfl
  · cases quotedFrom true steps (after.dropWhile fun g => isGap g.char) <;> rfl

theorem doubleWord_stop (h : isSpace (peek gs 0) = true ∨ peek gs 0 = '"') :
    doubleWord 0 gs = .ok ([], false, gs) := by
  match gs with
  | [] => rfl
  | [_] => rfl
  | g :: e :: gs =>
    rw [peek_cons_zero] at h
    rw [doubleWord, if_pos (by simpa using h)]

theorem inside_append (cs ds : List Char) : inside (cs ++ ds) = inside cs ++ inside ds :=
  List.flatMap_append

theorem onLine_doubleQuote : OnLine '"' := ⟨by decide, by decide⟩

theorem quotedChar_ne_nil (c : Char) : quotedChar c ≠ [] := by
  fun_cases quotedChar c <;> exact List.cons_ne_nil _ _

theorem length_le_inside (cs : List Char) : cs.length ≤ (inside cs).length := by
  induction cs with
  | nil => exact Nat.le_refl _
  | cons c cs ih =>
    have hc := List.length_pos_iff.2 (quotedChar_ne_nil c)
    rw [inside, List.flatMap_cons, ← inside, List.length_append, List.length_cons]
    omega

theorem length_quotedChar_le (c : Char) : (quotedChar c).length ≤ 6 := by
  fun_cases quotedChar c <;> simp

theorem length_inside_le (cs : List Char) : (inside cs).length ≤ 6 * cs.length := by
  induction cs with
  | nil => exact Nat.le_refl _
  | cons c cs ih =>
    have hc := length_quotedChar_le c
    rw [inside, List.flatMap_cons, ← inside, List.length_append, List.length_cons]
    omega

theorem isBlank_quotedChar (hc : c ≠ ' ') {d : Char} (hd : d ∈ quotedChar c) :
    isBlank d = false := by
  have hv : ∀ d ∈ escapeAlphabet, isBlank d = false := List.all_iff_forall_prop.1 (by decide)
  rcases mem_quotedChar hd with h | ⟨rfl, h⟩
  · exact hv d h
  · exact isBlank_of_not_space (isSpace_of_raw h hc)

theorem not_gap_inside (h : ∀ c ∈ cs.head?, c ≠ ' ') (m : Mark) (rest : List Char) :
    ∀ g ∈ (glyphsFrom m (inside cs ++ '"' :: rest)).head?, isGapGlyph g = false := by
  apply not_gap_glyphsFrom
  intro d hd
  rw [List.head?_append, Option.mem_def, Option.or_eq_some_iff] at hd
  rcases hd with hd | ⟨-, hd⟩
  · refine ⟨onLine_inside cs d (List.mem_of_mem_head? hd), ?_⟩
    cases cs with
    | nil => cases hd
    | cons c cs =>
      obtain ⟨e, es, he⟩ := List.exists_cons_of_ne_nil (quotedChar_ne_nil c)
      rw [inside, List.flatMap_cons, he] at hd
      cases hd
      exact isBlank_quotedChar (h c rfl) (he ▸ List.mem_cons_self)
  · cases hd
    exact ⟨onLine_doubleQuote, by decide⟩

/-- Text in double quotes is read back up to the closing one. -/
theorem quotedFrom_inside (hm : 0 < m.column) {steps : Nat} (hs : cs.length < steps)
    (rest : List Char) :
    quotedFrom true steps (glyphsFrom m (inside cs ++ '"' :: rest)) =
      .ok (cs, glyphsFrom (m.along ((inside cs).length + 1)) rest) := by
  induction h : cs.length using Nat.strongRecOn generalizing m cs steps with
  | ind n ih =>
    have hi : Inside (glyphsFrom m (inside cs ++ '"' :: rest)) :=
      .of_column (by rwa [here_glyphsFrom])
    have ht := peek_inside m cs rest
    obtain ⟨steps, rfl⟩ := Nat.exists_eq_add_one_of_ne_zero (n := steps) (by omega)
    by_cases hw : ' ' ∈ cs
    · obtain ⟨w, n, ds, rfl, hw, hd⟩ := exists_gap hw
      simp only [List.length_append, length_padding] at h hs
      have hg : glyphsFrom m (inside (w ++ (padding (n + 1) ++ ds)) ++ '"' :: rest) =
          row m (inside w) ++ (row (m.along (inside w).length) (padding (n + 1)) ++
            glyphsFrom (m.along ((inside w).length + (n + 1))) (inside ds ++ '"' :: rest)) := by
        rw [inside_append, inside_append, inside_padding, List.append_assoc, List.append_assoc,
          glyphsFrom_append (onLine_inside w), glyphsFrom_append (onLine_padding _),
          length_padding, Mark.along_along]
      rw [hg] at hi ht ⊢
      generalize hgs : row (m.along (inside w).length) (padding (n + 1)) ++
        glyphsFrom (m.along ((inside w).length + (n + 1))) (inside ds ++ '"' :: rest) = gs at *
      have hp : peek gs 0 = ' ' := hgs ▸ rfl
      have hn : gs ≠ [] := hgs ▸ List.cons_ne_nil _ _
      have hw := doubleWord_inside hw hn (doubleWord_stop (.inl (hp ▸ rfl))) m
      have hend := not_gap_inside hd (m.along ((inside w).length + (n + 1))) rest
      rw [quotedFrom_word hi ht hw, if_neg (by simp [hp]), ← hgs,
        takeWhile_append_eq_left (isGap_padding _ _) hend,
        dropWhile_append_eq_right (isGap_padding _ _) hend, foldGap_padding,
        ih ds.length (by omega) _ (by omega) rfl]
      · simp [Except.map, inside_append, inside_padding, Nat.add_assoc]
      · rw [Mark.along_column]
        omega
    · rw [glyphsFrom_append (onLine_inside cs)] at hi ht ⊢
      have hp := peek_glyphsFrom_cons onLine_doubleQuote (m.along (inside cs).length) rest
      have hw := doubleWord_inside hw (glyphsFrom_ne_nil _ _) (doubleWord_stop (.inr hp)) m
      rw [quotedFrom_word hi ht hw, if_pos hp, glyphsFrom_cons onLine_doubleQuote]
      rfl

theorem quote_append (cs rest : List Char) :
    quote cs ++ rest = '"' :: (inside cs ++ '"' :: rest) := by
  simp [quote, inside]

theorem length_quote (cs : List Char) : (quote cs).length = (inside cs).length + 2 := by
  simp [quote, inside]

theorem onLine_quote (cs : List Char) : ∀ c ∈ quote cs, OnLine c := by
  intro c hc
  simp only [quote, List.cons_append, List.mem_cons, List.mem_append, List.not_mem_nil,
    or_false] at hc
  rcases hc with rfl | hc | rfl
  · exact onLine_doubleQuote
  · exact onLine_inside cs c hc
  · exact onLine_doubleQuote

/-! ### Lengths -/

theorem length_textChars_le (s : String) : (textChars s).length ≤ 6 * s.toList.length + 2 := by
  have hc := length_inside_le s.toList
  rw [textChars]
  split
  · omega
  · rw [length_quote]
    omega

theorem length_le_textChars (s : String) : s.toList.length ≤ (textChars s).length := by
  have hc := length_le_inside s.toList
  rw [textChars]
  split
  · exact Nat.le_refl _
  · rw [length_quote]
    omega

end RemoteCall.Yaml
