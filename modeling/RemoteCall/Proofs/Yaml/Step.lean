import RemoteCall.Proofs.Yaml.Lexer

/-!
What the lexer does with the parts of a line: scalars, keys with their colons, dashes and empty
brackets.
-/

namespace RemoteCall.Yaml

/-- How plain text may begin. -/
inductive Lead : List Char → Prop
  | letter {c : Char} (cs : List Char) : c ∉ Lexer.signs → Lead (c :: cs)
  | minus {d : Char} (cs : List Char) : isSpace d = false → d ≠ '-' → Lead ('-' :: d :: cs)

/-- At the start of a line the text would end a document. -/
def EndsDocument (cs : List Char) : Prop :=
  ∃ rest, cs = '.' :: '.' :: '.' :: rest ∧ ∀ c ∈ rest.head?, isSpace c = true

/-- How a scalar is written on a line, and the token that it is read as. -/
inductive Written : List Char → Token → Prop
  | plain {cs : List Char} : Words cs → Lead cs → ¬ EndsDocument cs →
    Written cs (.scalar (String.ofList cs) true)
  | quoted (cs : List Char) : Written (quote cs) (.scalar (String.ofList cs) false)

/-- Lines that go on no deeper than a block: spaces up to its column, and something behind them
unless the text ends. -/
inductive Lands (indent : Int) : List Char → Prop
  | line {n : Nat} {cs : List Char} : Solid cs → (n : Int) ≤ indent ∨ cs = [] →
    Lands indent (padding n ++ cs)

variable {p : Lexer.Progress} {m m' : Mark} {cs tail tail' w : List Char} {c : Char}
  {fresh broken : Bool} {t : Token} {indent : Int}

theorem Lands.mono {i j : Int} (h : Lands i cs) (hij : i ≤ j) : Lands j cs := by
  obtain ⟨hs, hn⟩ := h
  exact .line hs (hn.imp_left fun hn => Int.le_trans hn hij)

theorem Follows.length_le (h : Follows indent m tail broken m' tail') :
    (glyphsFrom m' tail').length ≤ (glyphsFrom m tail).length := by
  obtain ⟨run, hr, -⟩ := h.split
  rw [hr, List.length_append]
  omega

theorem Follows.peek_ne (h : Follows indent m tail broken m' tail') :
    peek (glyphsFrom m tail) 0 ≠ '.' := by
  cases h with
  | stop => exact (by decide : terminator ≠ '.')
  | colon => exact (by decide : ':' ≠ '.')
  | line => exact (by decide : '\n' ≠ '.')

theorem length_glyphsFrom_append (h : ∀ c ∈ w, OnLine c) (hn : w ≠ []) (m : Mark)
    (tail : List Char) :
    (glyphsFrom (m.along w.length) tail).length < (glyphsFrom m (w ++ tail)).length := by
  rw [glyphsFrom_append h, List.length_append, length_row]
  have := List.length_pos_iff.2 hn
  omega

/-- Plain text neither begins nor ends a document. -/
theorem inside_plain (hw : Words cs) (hl : Lead cs) (he : ¬ EndsDocument cs)
    (hf : Follows indent (m.along cs.length) tail broken m' tail') :
    Inside (glyphsFrom m (cs ++ tail)) := by
  rw [glyphsFrom_append hw.onLine]
  have hp := hf.peek_ne
  constructor
  · cases hl with
    | letter cs hc =>
      rename_i c
      have hd : (c == '-') = false := by
        rw [beq_eq_false_iff_ne]
        rintro rfl
        exact hc (by decide)
      simp [atDocumentMark, row, hd]
    | minus cs hs hd => simp [atDocumentMark, row, hd]
  · rw [Bool.eq_false_iff]
    intro h
    simp only [atDocumentMark, Bool.and_eq_true, beq_iff_eq] at h
    obtain ⟨⟨⟨⟨-, h₀⟩, h₁⟩, h₂⟩, h₃⟩ := h
    obtain _ | ⟨a, _ | ⟨b, _ | ⟨c, ds⟩⟩⟩ := cs
    · exact hp h₀
    · exact hp h₁
    · exact hp h₂
    · cases h₀; cases h₁; cases h₂
      refine he ⟨ds, rfl, ?_⟩
      intro d hd
      cases ds with
      | nil => cases hd
      | cons e es =>
        cases hd
        exact h₃

theorem Lead.beginsPlain (h : Lead cs) (hw : Words cs) (m : Mark) (tail : List Char) :
    Lexer.BeginsPlain (peek (glyphsFrom m (cs ++ tail)) 0)
      (peek (glyphsFrom m (cs ++ tail)) 1) := by
  obtain ⟨d, ds, hd, hc⟩ := hw.eq_cons
  rw [glyphsFrom_append hw.onLine]
  cases h with
  | letter cs hs =>
    cases hd
    exact .inl ⟨hc.noSpace, hs⟩
  | minus cs hs _ => exact .inr ⟨.inl rfl, hs⟩

namespace Lexer

variable {k : Option Candidate}

/-- Where a key may begin, it may begin in front. -/
def noted (p : Progress) (m : Mark) (fresh : Bool) : Option Candidate :=
  if fresh then some ⟨p.indent = m.column, p.made.length, m⟩ else none

theorem remember_before :
    (before p m cs none fresh).remember = .ok (before p m cs (noted p m fresh) fresh) := by
  cases fresh with
  | false => rfl
  | true => simp [remember, forget, before, inFlow, noted, Except.map, column, mark]

theorem plain_before (h : Words cs) (hi : Inside (glyphsFrom m (cs ++ tail)))
    (hf : Follows (p.indent + 1) (m.along cs.length) tail broken m' tail')
    (hc : p.indent ≤ m.column) :
    (before p m (cs ++ tail) none fresh).plain =
      .ok (before (p.add [.scalar (String.ofList cs) true]) m' tail' (noted p m fresh) broken) := by
  have hl : cs.length ≤ (glyphsFrom m (cs ++ tail)).length := by
    rw [glyphsFrom_append h.onLine, List.length_append, length_row]
    omega
  have hp := plainFrom_words h hi hf (by omega) hl [] false
  rw [List.nil_append] at hp
  rw [Lexer.plain, remember_before]
  simp only [before, inFlow, List.isEmpty_nil, Bool.not_true, bind, Except.bind, hp]
  rfl

theorem quoted_before (cs : List Char) :
    (before p m (quote cs ++ tail) none fresh).quoted true =
      .ok (before (p.add [.scalar (String.ofList cs) false]) (m.along (quote cs).length) tail
        (noted p m fresh) false) := by
  have hg := glyphsFrom_cons onLine_doubleQuote m (inside cs ++ '"' :: tail)
  have hl : cs.length ≤ (glyphsFrom m.next (inside cs ++ '"' :: tail)).length := by
    rw [glyphsFrom_append (onLine_inside cs), List.length_append, length_row]
    have := length_le_inside cs
    omega
  have hq := quotedFrom_inside (m := m.next) (Nat.succ_pos _) (Nat.lt_succ_of_le hl) tail
  rw [Mark.next_along] at hq
  rw [Lexer.quoted, item, remember_before, quote_append, length_quote]
  simp only [before, bind, Except.bind, hg, List.drop_succ_cons, List.drop_zero, hq]
  rfl

/-! ### Scalars -/

/-- A step over some text in front, where no block ends. -/
theorem Reaches.of_dispatch {p' : Progress} {k k' k'' : Option Candidate} {fresh' : Bool}
    (hs : Solid (w ++ tail)) (hk : dropStale m k = .ok k') (hc : p.indent ≤ m.column)
    (ht : peek (glyphsFrom m (w ++ tail)) 0 ≠ terminator)
    (hd : (before p m (w ++ tail) k' fresh).dispatch = .ok (before p' m' tail' k'' fresh'))
    (hw : ∀ c ∈ w, OnLine c) (hn : w ≠ [])
    (hl : (glyphsFrom m' tail').length ≤ (glyphsFrom (m.along w.length) tail).length) :
    (before p m (w ++ tail) k fresh).Reaches (before p' m' tail' k'' fresh') := by
  refine .of_step (.of_solid hs hk) ht ?_ ?_
  · rwa [unroll_before (by simpa using hc)]
  · apply Nat.lt_of_le_of_lt (skipGaps_length_le _)
    exact Nat.lt_of_le_of_lt hl (length_glyphsFrom_append hw hn m tail)

theorem Reaches.plain (h : Words cs) (hi : Inside (glyphsFrom m (cs ++ tail)))
    (hb : BeginsPlain (peek (glyphsFrom m (cs ++ tail)) 0) (peek (glyphsFrom m (cs ++ tail)) 1))
    (hf : Follows (p.indent + 1) (m.along cs.length) tail broken m' tail')
    (hc : p.indent ≤ m.column) (fresh : Bool) :
    (before p m (cs ++ tail) none fresh).Reaches
      (before (p.add [.scalar (String.ofList cs) true]) m' tail' (noted p m fresh) broken) := by
  refine .of_dispatch (h.solid tail) rfl hc hb.ne_terminator ?_ h.onLine h.ne_nil hf.length_le
  rw [dispatch_plain hi hb rfl, plain_before h hi hf hc]

theorem Reaches.quoted (cs tail : List Char) (hc : p.indent ≤ m.column) (fresh : Bool) :
    (before p m (quote cs ++ tail) none fresh).Reaches
      (before (p.add [.scalar (String.ofList cs) false]) (m.along (quote cs).length) tail
        (noted p m fresh) false) := by
  have hp : peek (glyphsFrom m (quote cs ++ tail)) 0 = '"' :=
    peek_glyphsFrom_cons onLine_doubleQuote m _
  have hs : Solid (quote cs ++ tail) := solid_sign (c := '"') (by decide) _
  refine .of_dispatch hs rfl hc (hp ▸ by decide) ?_ (onLine_quote cs) (List.cons_ne_nil _ _)
    (Nat.le_refl _)
  rw [dispatch_quoted hp, quoted_before]

/-- A scalar in front of its colon. -/
theorem Reaches.key_text (h : Written w t) (hc : c = ' ' ∨ c = '\n') (hi : p.indent ≤ m.column)
    (cs : List Char) (fresh : Bool) :
    (before p m (w ++ ':' :: c :: cs) none fresh).Reaches
      (before (p.add [t]) (m.along w.length) (':' :: c :: cs) (noted p m fresh) false) := by
  cases h with
  | plain hw hl he =>
    have hf : Follows (p.indent + 1) (m.along w.length) (':' :: c :: cs) false (m.along w.length)
      (':' :: c :: cs) := .colon hc
    exact .plain hw (inside_plain hw hl he hf) (hl.beginsPlain hw m _) hf hi fresh
  | quoted ds => exact .quoted ds _ hi fresh

theorem dropStale_noted (hi : p.indent < m.column) (hm : m.line < m'.line) (fresh : Bool) :
    dropStale m' (noted p m fresh) = .ok none := by
  have hr : ¬ p.indent = m.column := by omega
  cases fresh with
  | false => rfl
  | true => simp [noted, dropStale, isStale, hm, hr]

/-- A scalar at the end of its line. -/
theorem Reaches.line_text (h : Written w t) (hl : Lands p.indent tail) (hi : p.indent < m.column)
    (fresh : Bool) :
    (before p m (w ++ '\n' :: tail) none fresh).Reaches
      (before (p.add [t]) ((m.along w.length).nextLine 1) tail none true) := by
  obtain @⟨n, cs, hs, hn⟩ := hl
  have hk : dropStale (((m.along w.length).nextLine 1).along n) (noted p m fresh) = .ok none :=
    dropStale_noted hi (Nat.lt_succ_self _) fresh
  cases h with
  | plain hw hl he =>
    have hf : Follows (p.indent + 1) (m.along w.length) ('\n' :: (padding n ++ cs)) true
        (((m.along w.length).nextLine 1).along n) cs :=
      .line n hs (hn.imp_left Int.lt_add_one_of_le)
    have hb := hl.beginsPlain hw m ('\n' :: (padding n ++ cs))
    refine .trans (.plain hw (inside_plain hw hl he hf) hb hf (by omega) fresh) ?_
    exact .of_settles (.of_solid hs hk) (.of_padding n hs rfl)
  | quoted ds =>
    refine .trans (.quoted ds _ (by omega) fresh) ?_
    exact .of_settles (.of_newline n hs hk) (.of_padding n hs rfl)

/-! ### The end -/

theorem dropStale_free {k : Option Candidate} (h : ∀ c ∈ k, c.required = false) (m : Mark) :
    ∃ k', dropStale m k = .ok k' ∧ ∀ c ∈ k', c.required = false := by
  cases k with
  | none => exact ⟨none, rfl, h⟩
  | some c =>
    have hc := h c rfl
    by_cases hs : isStale m c
    · exact ⟨none, by simp [dropStale, hs, hc], fun _ hd => nomatch hd⟩
    · exact ⟨some c, by simp [dropStale, hs], h⟩

theorem close_before {k : Option Candidate} (hi : p.indent = -1)
    (hk : ∀ c ∈ k, c.required = false) :
    (before p m cs k fresh).close = .ok (before (p.add [.streamEnd]) m cs none false) := by
  rw [close, unroll_before (Int.le_of_eq hi)]
  cases k with
  | none => rfl
  | some c => simp [before, forget, hk c rfl, Except.map, push, Progress.add]

theorem margin_before (hi : p.indent = -1) :
    (before p m cs none fresh).margin = .ok (before p m cs none false) := by
  rw [margin, unroll_before (Int.le_of_eq hi)]
  rfl

/-- At the end of the text, with no block open, the tokens are complete. -/
theorem yields_end {k : Option Candidate} (hi : p.indent = -1)
    (hk : ∀ c ∈ k, c.required = false) (m : Mark) (fresh : Bool) :
    (before p m [] k fresh).Yields (.ok (p.made.reverse ++ [.streamEnd])) := by
  obtain ⟨k', hd, hk'⟩ := dropStale_free hk m
  have hs : Solid [] := fun _ h => nomatch h
  have hset : (before p m [] k fresh).Settles (before p m [] k' fresh) := .of_solid hs hd
  have hy := Yields.of_close hset rfl (close_before hi hk')
  have he : (before (p.add [.streamEnd]) m [] none false).made.reverse =
      p.made.reverse ++ [.streamEnd] := by
    simp [before, Progress.add]
  rwa [he] at hy

/-! ### Keys -/

theorem dropStale_near {n : Nat} (hn : n ≤ 1024) (fresh : Bool) :
    dropStale (m.along n) (noted p m fresh) = .ok (noted p m fresh) := by
  have hs : ¬ m.index + 1024 < m.index + n := by omega
  cases fresh with
  | false => rfl
  | true => simp [noted, dropStale, isStale, hs]

theorem value_before (t : Token) (n : Nat) (cs : List Char) :
    (before (p.add [t]) (m.along n) (':' :: cs) (noted p m true) false).value =
      .ok (before ((p.enter m.column .blockMapping).add [.key, t, .value]) (m.along (n + 1)) cs none
        false) := by
  have hg := glyphsFrom_cons (c := ':') ⟨by decide, by decide⟩ (m.along n) cs
  have hl : p.made.length + 1 + 1 - p.made.length = 2 := by omega
  by_cases h : (m.column : Int) ≤ p.indent <;>
    simp [value, before, noted, insert, roll, inFlow, pass, push, Progress.add, Progress.enter, h,
      hg, hl]

theorem dispatch_colon (hc : c = ' ' ∨ c = '\n') (m : Mark) (cs : List Char)
    (k : Option Candidate) :
    (before p m (':' :: c :: cs) k fresh).dispatch =
      (before p m (':' :: c :: cs) k fresh).value := by
  refine dispatch_value rfl ?_
  rw [before, peek_colon hc]
  rcases hc with rfl | rfl <;> decide

/-- A key with its colon, which opens a block at the column of the key unless one is open there. -/
theorem Reaches.key (h : Written w t) (hw : w.length ≤ 1024) (hc : c = ' ' ∨ c = '\n')
    (hi : p.indent ≤ m.column) (cs : List Char) :
    (before p m (w ++ ':' :: c :: cs) none true).Reaches
      (before ((p.enter m.column .blockMapping).add [.key, t, .value]) (m.along (w.length + 1))
        (c :: cs) none false) := by
  refine .trans (.key_text h hc hi cs true) ?_
  have hs : Solid (':' :: c :: cs) := solid_sign (by decide) _
  have hp : peek (glyphsFrom (m.along w.length) (':' :: c :: cs)) 0 ≠ terminator :=
    (by decide : ':' ≠ terminator)
  have hm : (p.add [t]).indent ≤ (m.along w.length).column := by
    rw [Progress.add_indent, Mark.along_column]
    omega
  refine .of_dispatch (w := [':']) hs (dropStale_near hw true) hm hp ?_
    (List.forall_mem_singleton.2 (hs _ rfl).1) (List.cons_ne_nil _ _) (Nat.le_refl _)
  exact (dispatch_colon hc _ _ _).trans (value_before t _ _)

theorem dash_before (cs : List Char) :
    (before p m ('-' :: cs) none true).blockEntry =
      .ok (before ((p.enter m.column .blockSequence).add [.blockEntry]) m.next cs none true) := by
  have hg := glyphsFrom_cons (c := '-') ⟨by decide, by decide⟩ m cs
  by_cases h : (m.column : Int) ≤ p.indent <;>
    simp [blockEntry, begin, forget, before, insert, roll, inFlow, pass, push, Progress.add,
      Progress.enter, h, hg, column, mark, here, bind, Except.bind, pure, Except.pure]

/-- A dash, which opens a block at its column unless one is open there. -/
theorem Reaches.dash (hi : p.indent ≤ m.column) (cs : List Char) :
    (before p m ('-' :: ' ' :: cs) none true).Reaches
      (before ((p.enter m.column .blockSequence).add [.blockEntry]) m.next (' ' :: cs) none
        true) := by
  have hs : Solid ('-' :: ' ' :: cs) := solid_sign (by decide) _
  refine .of_dispatch (w := ['-']) hs rfl hi (fun h => ?_) ?_
    (List.forall_mem_singleton.2 (hs _ rfl).1) (List.cons_ne_nil _ _) (Nat.le_refl _)
  · cases h
  · exact (dispatch_dash rfl rfl).trans (dash_before _)

/-! ### Brackets -/

/-- The two kinds of brackets, and the tokens that they are read as. -/
inductive Brackets : Char → Char → Token → Token → Prop
  | square : Brackets '[' ']' .flowSequence .flowSequenceEnd
  | curly : Brackets '\x7b' '\x7d' .flowMapping .flowMappingEnd

variable {o c : Char} {t t' : Token}

theorem dispatch_open {s : Lexer} (h : Brackets o c t t') (hp : peek s.rest 0 = o) :
    s.dispatch = s.openFlow t := by
  cases h <;> simp [dispatch, atDocumentMark, hp]

theorem dispatch_close {s : Lexer} (h : Brackets o c t t') (hp : peek s.rest 0 = c) :
    s.dispatch = s.closeFlow t' := by
  cases h <;> simp [dispatch, atDocumentMark, hp]

theorem Brackets.solid_open (h : Brackets o c t t') (cs : List Char) : Solid (o :: cs) := by
  cases h <;> exact solid_sign (by decide) cs

theorem Brackets.solid_close (h : Brackets o c t t') (cs : List Char) : Solid (c :: cs) := by
  cases h <;> exact solid_sign (by decide) cs

/-- Inside a bracket, with what was noted in front of it. -/
def within (p : Progress) (m : Mark) (cs : List Char) (k : Option Candidate) : Lexer :=
  ⟨glyphsFrom m cs, p.made, p.indent, p.indents, none, [k], true⟩

theorem openFlow_before {d : Char} (ho : OnLine d) (t : Token) (cs : List Char) :
    (before p m (d :: cs) none fresh).openFlow t =
      .ok (within (p.add [t]) m.next cs (noted p m fresh)) := by
  rw [openFlow, remember_before]
  simp [Except.map, before, within, pass, push, glyphsFrom_cons ho, Progress.add]

theorem closeFlow_within {d : Char} (ho : OnLine d) (t : Token) (cs : List Char) :
    (within p m (d :: cs) k).closeFlow t = .ok (before (p.add [t]) m.next cs k false) := by
  simp [closeFlow, forget, Except.map, before, within, pass, push, glyphsFrom_cons ho, Progress.add]

theorem Settles.of_within (hs : Solid cs) (hk : dropStale m k = .ok k) :
    (within p m cs k).Settles (within p m cs k) := by
  have hn : dropStale m none = .ok none := rfl
  rw [Settles, skipGaps_eq (skip_solid hs m _ _) (glyphsFrom_ne_nil _ _) hs]
  simp [expire, mark, within, hn, hk, bind, Except.bind, pure, Except.pure]

theorem Reaches.opened (h : Brackets o c t t') (hi : p.indent ≤ m.column) (cs : List Char)
    (fresh : Bool) :
    (before p m (o :: cs) none fresh).Reaches
      (within (p.add [t]) m.next cs (noted p m fresh)) := by
  have hs := h.solid_open cs
  obtain ⟨ho, -⟩ := hs o rfl
  refine .of_step (.of_solid hs rfl) ?_ ?_ ?_
  · rw [before, peek_glyphsFrom_cons ho]
    cases h <;> decide
  · rw [unroll_before (by simpa using hi), dispatch_open h (peek_glyphsFrom_cons ho m cs),
      openFlow_before ho]
  · apply Nat.lt_of_le_of_lt (skipGaps_length_le _)
    simp [within, before, glyphsFrom_cons ho]

theorem Reaches.closed (h : Brackets o c t t') (hk : dropStale m k = .ok k) (cs : List Char) :
    (within p m (c :: cs) k).Reaches (before (p.add [t']) m.next cs k false) := by
  have hs := h.solid_close cs
  obtain ⟨ho, -⟩ := hs c rfl
  refine .of_step (.of_within hs hk) ?_ ?_ ?_
  · rw [within, peek_glyphsFrom_cons ho]
    cases h <;> decide
  · rw [← closeFlow_within ho]
    exact dispatch_close h (peek_glyphsFrom_cons ho m cs)
  · apply Nat.lt_of_le_of_lt (skipGaps_length_le _)
    simp [within, before, glyphsFrom_cons ho]

/-- Brackets with nothing between them. -/
theorem Reaches.brackets (h : Brackets o c t t') (hi : p.indent ≤ m.column) (cs : List Char)
    (fresh : Bool) :
    (before p m (o :: c :: cs) none fresh).Reaches
      (before (p.add [t, t']) (m.along 2) cs (noted p m fresh) false) := by
  refine .trans (.opened h hi (c :: cs) fresh) ?_
  rw [← List.singleton_append, ← Progress.add_add]
  exact .closed h (dropStale_near (n := 1) (by decide) fresh) cs

/-- Empty brackets at the end of their line. -/
theorem Reaches.line_brackets (h : Brackets o c t t') (hi : p.indent < m.column)
    (hl : Lands p.indent tail) (fresh : Bool) :
    (before p m (o :: c :: '\n' :: tail) none fresh).Reaches
      (before (p.add [t, t']) ((m.along 2).nextLine 1) tail none true) := by
  obtain @⟨n, cs, hs, hn⟩ := hl
  have hk : dropStale (((m.along 2).nextLine 1).along n) (noted p m fresh) = .ok none :=
    dropStale_noted hi (Nat.lt_succ_self _) fresh
  refine .trans (.brackets h (by omega) _ fresh) ?_
  exact .of_settles (.of_newline n hs hk) (.of_padding n hs rfl)

end Lexer

end RemoteCall.Yaml
