import Mathlib.Data.Bool.AllAny
import RemoteCall.Proofs.Text.Pieces
import RemoteCall.Proofs.Yaml.Glyph
import RemoteCall.Yaml.Printer

/-!
Reading plain scalars: words with runs of spaces between them come back as they are, whether a colon
or the end of the line follows.
-/

namespace RemoteCall.Yaml

open Text (takeWhile_append_eq_left dropWhile_append_eq_right)

structure WordChar (c : Char) : Prop where
  onLine : OnLine c
  noSpace : isSpace c = false
  noColon : c ≠ ':'
  noComment : c ≠ '#'
  noMark : c ≠ '\uFEFF'

structure IsWord (w : List Char) : Prop where
  ne_nil : w ≠ []
  chars : ∀ c ∈ w, WordChar c

/-- Words with spaces between them. -/
inductive Words : List Char → Prop
  | last {w : List Char} : IsWord w → Words w
  | cons {w cs : List Char} (n : Nat) :
    IsWord w → Words cs → Words (w ++ (padding (n + 1) ++ cs))

/-- Text at whose first character the lexer stops passing over gaps. -/
def Solid (cs : List Char) : Prop :=
  ∀ c ∈ cs.head?, OnLine c ∧ isBlank c = false ∧ c ≠ '#' ∧ c ≠ '\uFEFF'

/-- What may follow a plain scalar in a block, whether a line ends there, and where the lexer stands
behind it: a text ends, a key has its colon, or a line ends and the next does not go on with the
scalar. -/
inductive Follows (indent : Int) (m : Mark) : List Char → Bool → Mark → List Char → Prop
  | stop : Follows indent m [] false m []
  | colon {c : Char} {cs : List Char} :
    c = ' ' ∨ c = '\n' → Follows indent m (':' :: c :: cs) false m (':' :: c :: cs)
  | line (p : Nat) {cs : List Char} : Solid cs → (p : Int) < indent ∨ cs = [] →
    Follows indent m ('\n' :: (padding p ++ cs)) true ((m.nextLine 1).along p) cs

/-! ### Gaps -/

theorem eq_of_mem_padding {n : Nat} {c : Char} (h : c ∈ padding n) : c = ' ' :=
  List.eq_of_mem_replicate h

@[simp] theorem length_padding (n : Nat) : (padding n).length = n := List.length_replicate

theorem padding_succ (n : Nat) : padding (n + 1) = ' ' :: padding n := rfl

theorem onLine_space : OnLine ' ' := ⟨by decide, by decide⟩

theorem onLine_padding (n : Nat) : ∀ c ∈ padding n, OnLine c := fun _ h =>
  eq_of_mem_padding h ▸ onLine_space

variable {m : Mark} {cs w : List Char} {gs : List Glyph}

/-- A gap in front, as the lexer sees it. -/
def isGapGlyph (g : Glyph) : Bool := isGap g.char

theorem isBlank_of_not_space {c : Char} (h : isSpace c = false) : isBlank c = false := by
  simp only [isSpace, Bool.or_eq_false_iff] at h
  exact h.1.1

theorem not_gap_glyphsFrom (h : ∀ c ∈ cs.head?, OnLine c ∧ isBlank c = false) (m : Mark) :
    ∀ g ∈ (glyphsFrom m cs).head?, isGapGlyph g = false := by
  intro g hg
  cases cs with
  | nil =>
    cases hg
    exact (by decide : isGap terminator = false)
  | cons c cs =>
    obtain ⟨ho, hb⟩ := h c rfl
    rw [glyphsFrom_cons ho] at hg
    cases hg
    simp [isGapGlyph, isGap, hb, ho.noBreak]

/-- The signs that stand on a line besides its scalars, and the quotes around one. -/
def lineSigns : List Char := ['-', ':', '"', '[', ']', '\x7b', '\x7d']

theorem solid_sign {c : Char} (h : c ∈ lineSigns) (cs : List Char) : Solid (c :: cs) := by
  have hv : ∀ c ∈ lineSigns,
    (isOtherBreak c = false ∧ isBreak c = false) ∧ isBlank c = false ∧
      c ≠ '#' ∧ c ≠ '\uFEFF' := List.all_iff_forall_prop.1 (by decide)
  intro d hd
  cases hd
  obtain ⟨⟨h₁, h₂⟩, hs⟩ := hv c h
  exact ⟨⟨h₁, h₂⟩, hs⟩

theorem Solid.not_gap (h : Solid cs) (m : Mark) :
    ∀ g ∈ (glyphsFrom m cs).head?, isGapGlyph g = false :=
  not_gap_glyphsFrom (fun c hc => ⟨(h c hc).1, (h c hc).2.1⟩) m

theorem isGap_padding (m : Mark) (n : Nat) : ∀ g ∈ row m (padding n), isGapGlyph g = true := by
  apply forall_mem_row (p := fun c => isGap c = true)
  intro c hc
  rw [eq_of_mem_padding hc]
  decide

/-! ### Words -/

/-- Where a word of a plain scalar ends. -/
def Stops (gs : List Glyph) : Prop :=
  gs ≠ [] ∧ (isSpace (peek gs 0) = true ∨ peek gs 0 = ':' ∧ isSpace (peek gs 1) = true)

theorem plainWord_row (hw : ∀ c ∈ w, WordChar c) (h : Stops gs) (m : Mark) :
    plainWord false (row m w ++ gs) = .ok (w, gs) := by
  induction w generalizing m with
  | nil =>
    obtain ⟨hn, hs⟩ := h
    obtain ⟨g, gs, rfl⟩ := List.exists_cons_of_ne_nil hn
    rw [row, List.nil_append, plainWord]
    rcases hs with hs | ⟨hc, hs⟩
    · simp_all
    · simp_all
  | cons c w ih =>
    obtain ⟨hc, hcs⟩ := List.forall_mem_cons.1 hw
    rw [row, List.cons_append, plainWord]
    simp [hc.noSpace, hc.noColon, ih hcs, Except.map]

theorem WordChar.solid {c : Char} (h : WordChar c) (cs : List Char) : Solid (c :: cs) := by
  intro d hd
  cases hd
  exact ⟨h.onLine, isBlank_of_not_space h.noSpace, h.noComment, h.noMark⟩

theorem IsWord.eq_cons (h : IsWord w) : ∃ c cs, w = c :: cs ∧ WordChar c := by
  obtain ⟨c, cs, rfl⟩ := List.exists_cons_of_ne_nil h.ne_nil
  exact ⟨c, cs, rfl, h.chars c List.mem_cons_self⟩

theorem IsWord.onLine (h : IsWord w) : ∀ c ∈ w, OnLine c := fun c hc => (h.chars c hc).onLine

theorem Words.eq_cons (h : Words cs) : ∃ c ds, cs = c :: ds ∧ WordChar c := by
  cases h with
  | last hw => exact hw.eq_cons
  | cons n hw _ =>
    obtain ⟨c, ds, rfl, hc⟩ := hw.eq_cons
    exact ⟨c, _, rfl, hc⟩

theorem Words.ne_nil (h : Words cs) : cs ≠ [] := by
  obtain ⟨c, ds, rfl, -⟩ := h.eq_cons
  exact List.cons_ne_nil c ds

theorem Words.solid (h : Words cs) (rest : List Char) : Solid (cs ++ rest) := by
  obtain ⟨c, ds, rfl, hc⟩ := h.eq_cons
  exact hc.solid _

theorem Words.onLine (h : Words cs) : ∀ c ∈ cs, OnLine c := by
  induction h with
  | last hw => exact hw.onLine
  | cons n hw _ ih =>
    intro c hc
    rcases List.mem_append.1 hc with h | h
    · exact hw.onLine c h
    · exact (List.mem_append.1 h).elim (onLine_padding _ c) (ih c)

theorem Words.cons_char {c : Char} (hc : WordChar c) (h : Words cs) : Words (c :: cs) := by
  cases h with
  | last hw => exact .last ⟨List.cons_ne_nil _ _, List.forall_mem_cons.2 ⟨hc, hw.chars⟩⟩
  | cons n hw h =>
    exact .cons n ⟨List.cons_ne_nil _ _, List.forall_mem_cons.2 ⟨hc, hw.chars⟩⟩ h

/-- Text of word characters and spaces is words behind some spaces, if it does not end in one. -/
theorem exists_words (h : ∀ c ∈ cs, c = ' ' ∨ WordChar c)
    (hl : ∀ c ∈ cs.getLast?, c ≠ ' ')
    (hn : cs ≠ []) : ∃ n ds, cs = padding n ++ ds ∧ Words ds := by
  induction cs with
  | nil => exact absurd rfl hn
  | cons c cs ih =>
    obtain ⟨hc, hcs⟩ := List.forall_mem_cons.1 h
    by_cases he : cs = []
    · subst he
      have hw := hc.resolve_left (hl c rfl)
      exact ⟨0, [c], rfl, .last ⟨List.cons_ne_nil _ _, List.forall_mem_singleton.2 hw⟩⟩
    · obtain ⟨n, ds, rfl, hd⟩ := ih hcs (by rwa [List.getLast?_cons_of_ne_nil he] at hl) he
      rcases hc with rfl | hc
      · exact ⟨n + 1, ds, rfl, hd⟩
      · refine ⟨0, _, rfl, ?_⟩
        cases n with
        | zero => exact hd.cons_char hc
        | succ n => exact .cons n ⟨List.cons_ne_nil c [], List.forall_mem_singleton.2 hc⟩ hd

theorem words_of_trimmed (h : ∀ c ∈ cs, c = ' ' ∨ WordChar c)
    (hh : ∀ c ∈ cs.head?, c ≠ ' ')
    (hl : ∀ c ∈ cs.getLast?, c ≠ ' ') (hn : cs ≠ []) : Words cs := by
  obtain ⟨n, ds, rfl, hd⟩ := exists_words h hl hn
  cases n with
  | zero => exact hd
  | succ n => exact absurd rfl (hh ' ' rfl)

/-! ### Marks of documents -/

/-- No document begins or ends in front. -/
structure Inside (gs : List Glyph) : Prop where
  noStart : atDocumentMark '-' gs = false
  noEnd : atDocumentMark '.' gs = false

theorem Inside.of_column (h : 0 < (here gs).column) : Inside gs := by
  have hc : ((here gs).column == 0) = false := by simpa using Nat.ne_of_gt h
  constructor <;> simp [atDocumentMark, hc]

/-! ### Scalars -/

variable {tail tail' : List Char} {m' : Mark} {indent : Int} {broken : Bool}

theorem plainFrom_stop (flow : Bool) (indent : Int) (steps : Nat) (gap : List Char) (broken : Bool)
    (m : Mark) : plainFrom flow indent steps gap broken (glyphsFrom m []) =
      .ok ([], broken, glyphsFrom m []) := by
  cases steps with
  | zero => rfl
  | succ steps =>
    simp [plainFrom, atDocumentMark, glyphsFrom, plainWord, isSpace, terminator, bind,
      Except.bind, pure, Except.pure]

/-- A word, the gap behind it, and the words that follow where the scalar goes on. -/
theorem plainFrom_word {run after : List Glyph} (hw : IsWord w)
    (hi : Inside (row m w ++ (run ++ after))) (hs : Stops (run ++ after))
    (hr : ∀ g ∈ run, isGapGlyph g = true) (ha : ∀ g ∈ after.head?, isGapGlyph g = false)
    (ht : abusesTab indent run = false) (steps : Nat) (gap : List Char) (broken : Bool) :
    plainFrom false indent (steps + 1) gap broken (row m w ++ (run ++ after)) =
      if run.isEmpty || ((here after).column : Int) < indent then
        .ok (gap ++ w, run.any fun g => isBreak g.char, after)
      else
        (plainFrom false indent steps (foldGap run) (run.any fun g => isBreak g.char) after).map
          fun (more, broken, rest) => (gap ++ w ++ more, broken, rest) := by
  have hc : peek (row m w ++ (run ++ after)) 0 ≠ '#' := by
    obtain ⟨c, cs, rfl, hc⟩ := hw.eq_cons
    exact hc.noComment
  have htake := takeWhile_append_eq_left hr ha
  have hdrop := dropWhile_append_eq_right hr ha
  have hp := plainWord_row hw.chars hs m
  have hn : w.isEmpty = false := by simpa using hw.ne_nil
  unfold isGapGlyph at htake hdrop
  rw [plainFrom]
  simp only [hi.noStart, hi.noEnd, hc, hp, htake, hdrop, ht, hn, bind, Except.bind, Bool.not_false,
    Bool.true_and, Bool.false_eq_true, Bool.or_self, decide_false, if_false]
  split
  · rfl
  · cases plainFrom false indent steps (foldGap run) (run.any fun g => isBreak g.char) after
    <;> rfl

theorem abusesTab_of_not_mem {run : List Glyph} (h : ∀ g ∈ run, g.char ≠ '\t')
    (indent : Int) : abusesTab indent run = false := by
  apply List.any_eq_false.2
  intro g hg
  simp [h g (List.dropWhile_subset _ hg)]

theorem not_tab_padding (m : Mark) (n : Nat) : ∀ g ∈ row m (padding n), g.char ≠ '\t' := by
  apply forall_mem_row (p := fun c => c ≠ '\t')
  intro c hc
  rw [eq_of_mem_padding hc]
  decide

theorem foldGap_padding (m : Mark) (n : Nat) : foldGap (row m (padding n)) = padding n := by
  have hf : (padding n).filter isBreak = [] := by
    apply List.filter_eq_nil_iff.2
    intro c hc
    rw [eq_of_mem_padding hc]
    decide
  rw [foldGap, map_char_row, hf]

theorem peek_colon {c : Char} (hc : c = ' ' ∨ c = '\n') (m : Mark) (cs : List Char) :
    peek (glyphsFrom m (':' :: c :: cs)) 1 = c := by
  rcases hc with rfl | rfl <;> rfl

/-- What follows a scalar is a gap, at which its last word stops. -/
theorem Follows.split (h : Follows indent m tail broken m' tail') :
    ∃ run, glyphsFrom m tail = run ++ glyphsFrom m' tail' ∧
      Stops (run ++ glyphsFrom m' tail') ∧ (∀ g ∈ run, isGapGlyph g = true) ∧
      (∀ g ∈ (glyphsFrom m' tail').head?, isGapGlyph g = false) ∧
      abusesTab indent run = false ∧ (run.any fun g => isBreak g.char) = broken ∧
      (run = [] ∨ (m'.column : Int) < indent ∨ tail' = []) := by
  cases h with
  | stop =>
    refine ⟨[], rfl, ⟨glyphsFrom_ne_nil _ _, .inl rfl⟩, ?_, Solid.not_gap ?_ _, rfl, rfl,
      .inl rfl⟩
    · exact fun _ hg => nomatch hg
    · exact fun _ hc => nomatch hc
  | colon hc =>
    refine ⟨[], rfl, ⟨glyphsFrom_ne_nil _ _, .inr ⟨rfl, ?_⟩⟩, ?_, ?_, rfl, rfl,
      .inl rfl⟩
    · rw [List.nil_append, peek_colon hc]
      rcases hc with rfl | rfl <;> rfl
    · exact fun _ hg => nomatch hg
    · intro g hg
      cases hg
      rfl
  | line p hs hp =>
    refine ⟨⟨'\n', m⟩ :: row (m.nextLine 1) (padding p), ?_,
      ⟨List.cons_ne_nil _ _, .inl rfl⟩, ?_,
      hs.not_gap _, ?_, rfl, .inr ?_⟩
    · rw [glyphsFrom_newline, glyphsFrom_append (onLine_padding p), length_padding]
      rfl
    · exact List.forall_mem_cons.2 ⟨rfl, isGap_padding _ p⟩
    · apply abusesTab_of_not_mem
      exact List.forall_mem_cons.2 ⟨(by decide : '\n' ≠ '\t'), not_tab_padding _ p⟩
    · simpa [Mark.nextLine] using hp

/-- Words are read back with the spaces between them. -/
theorem plainFrom_words (h : Words cs) (hi : Inside (glyphsFrom m (cs ++ tail)))
    (hf : Follows indent (m.along cs.length) tail broken m' tail') (hc : indent ≤ m.column + 1)
    {steps : Nat} (hs : cs.length ≤ steps) (gap : List Char) (b : Bool) :
    plainFrom false indent steps gap b (glyphsFrom m (cs ++ tail)) =
      .ok (gap ++ cs, broken, glyphsFrom m' tail') := by
  induction h generalizing m steps gap b with
  | @last w hw =>
    obtain ⟨run, hr, hstop, hgap, hend, htab, hb, hstays⟩ := hf.split
    have hl := List.length_pos_iff.2 hw.ne_nil
    obtain ⟨steps, rfl⟩ :=
      Nat.exists_eq_succ_of_ne_zero (Nat.ne_of_gt (Nat.lt_of_lt_of_le hl hs))
    rw [glyphsFrom_append hw.onLine, hr] at hi ⊢
    rw [plainFrom_word hw hi hstop hgap hend htab, hb]
    split
    · rfl
    · next hn =>
      have hne : run ≠ [] ∧ ¬ (m'.column : Int) < indent := by simpa using hn
      rcases hstays with h | h | rfl
      · exact absurd h hne.1
      · exact absurd h hne.2
      · rw [plainFrom_stop]
        simp [Except.map]
  | @cons w cs n hw hcs ih =>
    have hl := List.length_pos_iff.2 hw.ne_nil
    simp only [List.length_append, length_padding] at hs hf
    obtain ⟨steps, rfl⟩ := Nat.exists_eq_add_one_of_ne_zero (n := steps) (by omega)
    have hg : glyphsFrom m (w ++ (padding (n + 1) ++ cs) ++ tail) =
        row m w ++ (row (m.along w.length) (padding (n + 1)) ++
          glyphsFrom (m.along (w.length + (n + 1))) (cs ++ tail)) := by
      rw [List.append_assoc, List.append_assoc, glyphsFrom_append hw.onLine,
        glyphsFrom_append (onLine_padding _), length_padding, Mark.along_along]
    rw [hg] at hi ⊢
    rw [plainFrom_word hw hi ⟨List.cons_ne_nil _ _, .inl rfl⟩ (isGap_padding _ _)
      ((hcs.solid tail).not_gap _) (abusesTab_of_not_mem (not_tab_padding _ _) _), if_neg,
      foldGap_padding, ih]
    · simp [Except.map]
    · apply Inside.of_column
      rw [here_glyphsFrom, Mark.along_column]
      omega
    · rwa [Mark.along_along, Nat.add_assoc]
    · rw [Mark.along_column]
      omega
    · omega
    · simp only [here_glyphsFrom, Mark.along_column, Bool.or_eq_true, List.isEmpty_iff,
        row_eq_nil_iff, decide_eq_true_eq, not_or]
      exact ⟨List.cons_ne_nil _ _, by omega⟩

end RemoteCall.Yaml
