import RemoteCall.Proofs.Outcome
import RemoteCall.Proofs.Yaml.Quoted

/-!
Runs of the lexer. A run is followed from one place between two tokens to a later one, whatever
comes after, so that the parts of a document are taken one by one.
-/

namespace RemoteCall.Yaml.Lexer

/-- What comes of the lexer in a step for each character in front: tokens, or an error. -/
def Yields (s : Lexer) (r : Except Obstruction (List Token)) : Prop :=
  ∀ steps, s.skipGaps.rest.length < steps → s.run steps = r

/-- What comes of the lexer from there on comes of it from here on. -/
def Reaches (s t : Lexer) : Prop := ∀ r, t.Yields r → s.Yields r

/-- What the lexer sees once it has passed over what is in front of the next token. -/
def Settles (s t : Lexer) : Prop := s.skipGaps.expire = .ok t

/-- The tokens so far, the latest first, and the columns of the blocks that are open. -/
structure Progress where
  made : List Token
  indent : Int
  indents : List Int

namespace Progress

def none : Progress := ⟨[], -1, []⟩

def add (p : Progress) (ts : List Token) : Progress := { p with made := ts.reverse ++ p.made }

/-- A block opens, unless one is open at this column. -/
def enter (p : Progress) (column : Nat) (t : Token) : Progress :=
  if (column : Int) ≤ p.indent then p else ⟨t :: p.made, column, p.indent :: p.indents⟩

@[simp] theorem add_indent (p : Progress) (ts : List Token) : (p.add ts).indent = p.indent := rfl

@[simp] theorem add_add (p : Progress) (ts us : List Token) :
    (p.add ts).add us = p.add (ts ++ us) := by
  simp [add]

end Progress

/-- In front of a text outside of brackets. -/
def before (p : Progress) (m : Mark) (cs : List Char) (k : Option Candidate) (fresh : Bool) :
    Lexer :=
  ⟨glyphsFrom m cs, p.made, p.indent, p.indents, k, [], fresh⟩

variable {s t u : Lexer} {p : Progress} {m : Mark} {cs : List Char} {k : Option Candidate}
  {fresh : Bool}

@[simp] theorem before_column : (before p m cs k fresh).column = m.column := by
  simp [column, mark, before]

/-! ### Runs -/

theorem Reaches.refl (s : Lexer) : s.Reaches s := fun _ h => h

theorem Reaches.trans (h : s.Reaches t) (h' : t.Reaches u) : s.Reaches u :=
  fun r hu => h r (h' r hu)

theorem expire_rest (h : s.expire = .ok t) : t.rest = s.rest := by
  simp only [expire, Outcome.bind_eq_ok_iff] at h
  obtain ⟨outer, -, candidate, -, he⟩ := h
  cases he
  rfl

theorem Settles.rest (h : s.Settles t) : t.rest = s.skipGaps.rest := expire_rest h

theorem Reaches.of_settles (hs : s.Settles u) (ht : t.Settles u) : s.Reaches t := by
  intro r h steps hl
  have hr := h steps (by rwa [← ht.rest, hs.rest])
  cases steps with
  | zero => cases hl
  | succ steps =>
    rw [run, ht] at hr
    rwa [run, hs]

theorem Reaches.of_step (hs : s.Settles u) (hp : peek u.rest 0 ≠ terminator)
    (hd : (u.unroll u.column).dispatch = .ok t) (hl : t.skipGaps.rest.length < u.rest.length) :
    s.Reaches t := by
  intro r h steps hs'
  rw [← hs.rest] at hs'
  cases steps with
  | zero => cases hs'
  | succ steps =>
    rw [run, hs]
    simp only [bind, Except.bind, hp, if_false, hd]
    exact h steps (by omega)

theorem Yields.of_error {e : Obstruction} (hs : s.Settles u) (hp : peek u.rest 0 ≠ terminator)
    (hd : (u.unroll u.column).dispatch = .error e) : s.Yields (.error e) := by
  intro steps hl
  cases steps with
  | zero => cases hl
  | succ steps =>
    rw [run, hs]
    simp only [bind, Except.bind, hp, if_false, hd]

theorem Yields.of_expired {e : Obstruction} (h : s.skipGaps.expire = .error e) :
    s.Yields (.error e) := by
  intro steps hl
  cases steps with
  | zero => cases hl
  | succ steps =>
    rw [run, h]
    rfl

theorem Yields.of_close (hs : s.Settles u) (hp : peek u.rest 0 = terminator)
    (hc : u.close = .ok t) : s.Yields (.ok t.made.reverse) := by
  intro steps hl
  cases steps with
  | zero => cases hl
  | succ steps =>
    rw [run, hs]
    simp only [bind, Except.bind, hp, if_true, hc]
    rfl

/-! ### Gaps -/

variable {cs' : List Char} {m' : Mark} {k' : Option Candidate} {fresh' : Bool}

theorem skip_length_le (gs : List Glyph) (flow fresh : Bool) :
    (skip gs flow fresh).1.length ≤ gs.length := by
  fun_induction skip gs flow fresh <;> simp_all <;> omega

theorem skipComment_length_le (gs : List Glyph) : (skipComment gs).length ≤ gs.length := by
  rw [skipComment]
  split
  · exact (List.dropWhile_sublist _).length_le
  · exact Nat.le_refl _

theorem skipLines_length_le (steps : Nat) (gs : List Glyph) (flow fresh : Bool) :
    (skipLines steps gs flow fresh).1.length ≤ gs.length := by
  induction steps generalizing gs fresh with
  | zero => exact Nat.le_refl _
  | succ steps ih =>
    have hs := skip_length_le gs flow fresh
    simp only [skipLines]
    split
    · exact Nat.le_trans (ih _ _) (Nat.le_trans (skipComment_length_le _) hs)
    · exact hs

theorem skipGaps_length_le (s : Lexer) : s.skipGaps.rest.length ≤ s.rest.length :=
  skipLines_length_le _ _ _ _

theorem skip_padding (m : Mark) (n : Nat) (gs : List Glyph) (flow fresh : Bool) :
    skip (row m (padding n) ++ gs) flow fresh = skip gs flow fresh := by
  induction n generalizing m with
  | zero => rfl
  | succ n ih =>
    rw [padding_succ, row, List.cons_append, skip]
    simp [ih]

theorem skip_solid (h : Solid cs) (m : Mark) (flow fresh : Bool) :
    skip (glyphsFrom m cs) flow fresh = (glyphsFrom m cs, fresh) := by
  cases cs with
  | nil => simp [glyphsFrom, skip, terminator, isBreak]
  | cons c cs =>
    obtain ⟨ho, hb, -, hm⟩ := h c rfl
    simp only [isBlank, Bool.or_eq_false_iff, decide_eq_false_iff_not] at hb
    rw [glyphsFrom_cons ho, skip]
    simp [hb.1, hb.2, hm, ho.noBreak]

theorem skipGaps_eq (h : skip s.rest s.inFlow s.fresh = (glyphsFrom m cs, fresh))
    (hn : s.rest ≠ []) (hs : Solid cs) :
    s.skipGaps = { s with rest := glyphsFrom m cs, fresh } := by
  have hc : peek (glyphsFrom m cs) 0 ≠ '#' := by
    cases cs with
    | nil => exact (by decide : terminator ≠ '#')
    | cons c cs =>
      obtain ⟨ho, -, hc, -⟩ := hs c rfl
      rwa [peek_glyphsFrom_cons ho]
  obtain ⟨g, gs, hg⟩ := List.exists_cons_of_ne_nil hn
  rw [hg] at h
  simp only [skipGaps, hg, List.length_cons, skipLines, h, hc, if_false]

theorem Settles.of_skip (h : skip (glyphsFrom m cs) false fresh = (glyphsFrom m' cs', fresh'))
    (hs : Solid cs') (hk : dropStale m' k = .ok k') :
    (before p m cs k fresh).Settles (before p m' cs' k' fresh') := by
  rw [Settles, skipGaps_eq h (glyphsFrom_ne_nil m cs) hs]
  simp [expire, before, mark, hk, bind, Except.bind, pure, Except.pure]

theorem Settles.of_solid (hs : Solid cs) (hk : dropStale m k = .ok k') :
    (before p m cs k fresh).Settles (before p m cs k' fresh) :=
  .of_skip (skip_solid hs m false fresh) hs hk

/-- Spaces are passed over. -/
theorem Settles.of_padding (n : Nat) (hs : Solid cs) (hk : dropStale (m.along n) k = .ok k') :
    (before p m (padding n ++ cs) k fresh).Settles (before p (m.along n) cs k' fresh) := by
  refine .of_skip ?_ hs hk
  rw [glyphsFrom_append (onLine_padding n), length_padding, skip_padding, skip_solid hs]

theorem Reaches.over_padding (hs : Solid cs) (n : Nat) :
    (before p m (padding n ++ cs) none fresh).Reaches (before p (m.along n) cs none fresh) :=
  .of_settles (.of_padding n hs rfl) (.of_solid hs rfl)

/-- Past the end of a line a key may begin. -/
theorem Settles.of_newline (n : Nat) (hs : Solid cs)
    (hk : dropStale ((m.nextLine 1).along n) k = .ok k') :
    (before p m ('\n' :: (padding n ++ cs)) k fresh).Settles
      (before p ((m.nextLine 1).along n) cs k' true) := by
  refine .of_skip ?_ hs hk
  rw [glyphsFrom_newline, skip, if_neg, if_neg, if_pos, glyphsFrom_append (onLine_padding n),
    length_padding, skip_padding, skip_solid hs]
  · simp
  · exact (by decide : isBreak '\n' = true)
  · simp
  · simp

/-! ### Blocks that end -/

theorem unroll_before {column : Int} (h : p.indent ≤ column) :
    (before p m cs k fresh).unroll column = before p m cs k fresh := by
  have hd : deeper column p.indent p.indents = (0, p.indent, p.indents) := by
    cases hp : p.indents with
    | nil => rfl
    | cons i is => rw [deeper, if_neg (by omega)]
  simp [unroll, before, inFlow, hd]

/-- At a column in front of a block the block ends, and whatever is open around it goes on. -/
theorem unroll_leave {column : Int} {n : Nat} (hp : p.indent < n) (hc : column < n) (t : Token)
    (ts : List Token) :
    (before ((p.enter n t).add ts) m cs k fresh).unroll column =
      (before (p.add (t :: ts ++ [.blockEnd])) m cs k fresh).unroll column := by
  have he : p.enter n t = ⟨t :: p.made, n, p.indent :: p.indents⟩ := if_neg (by omega)
  simp only [he, before, Progress.add, unroll, inFlow, deeper, hc, if_true]
  simp [List.replicate_succ']

theorem Reaches.of_unroll (hs : s.Settles s) (ht : t.Settles t) (hr : s.rest = t.rest)
    (hu : peek s.rest 0 ≠ terminator → s.unroll s.column = t.unroll s.column)
    (hc : s.unroll (-1) = t.unroll (-1)) : s.Reaches t := by
  intro r h steps hl
  have ho := h steps (by rwa [← ht.rest, ← hr, hs.rest])
  cases steps with
  | zero => cases hl
  | succ steps =>
    rw [run, ht] at ho
    rw [run, hs]
    have hcol : s.column = t.column := by rw [column, column, mark, mark, hr]
    simp only [bind, Except.bind, close, hr, hc, hcol] at ho hu ⊢
    split
    · next hp => simpa only [hp, if_true] using ho
    · next hp => simpa only [hp, if_false, hu hp] using ho

/-- A block ends where a line begins in front of it. -/
theorem Reaches.leave {n : Nat} (hp : p.indent < n) (hs : Solid cs) (hm : m.column < n ∨ cs = [])
    (t : Token) (ts : List Token) (fresh : Bool) :
    (before ((p.enter n t).add ts) m cs none fresh).Reaches
      (before (p.add (t :: ts ++ [.blockEnd])) m cs none fresh) := by
  refine .of_unroll (.of_solid hs rfl) (.of_solid hs rfl) rfl ?_ ?_
  · intro hn
    rw [before_column]
    refine unroll_leave hp (Int.ofNat_lt.2 (hm.resolve_right ?_)) t ts
    rintro rfl
    exact hn rfl
  · exact unroll_leave hp (by omega) t ts

/-! ### What the character in front begins -/

def signs : List Char :=
  ['-', '?', ':', ',', '[', ']', '\x7b', '\x7d', '#', '&', '*', '!', '|', '>', '\'', '"', '%', '@',
    '\x60']

/-- Characters with which a plain scalar begins. -/
def BeginsPlain (c next : Char) : Prop :=
  isSpace c = false ∧ c ∉ signs ∨ (c = '-' ∨ c = '?') ∧ isSpace next = false

theorem BeginsPlain.ne_terminator {c next : Char} (h : BeginsPlain c next) : c ≠ terminator := by
  rintro rfl
  rcases h with ⟨h, -⟩ | ⟨h | h, -⟩ <;> revert h <;> decide

theorem dispatch_plain (hi : Inside s.rest) (h : BeginsPlain (peek s.rest 0) (peek s.rest 1))
    (hf : s.inFlow = false) : s.dispatch = s.plain := by
  rcases h with ⟨hs, hc⟩ | ⟨hc | hc, hn⟩
  · simp only [signs, List.mem_cons, List.not_mem_nil, or_false, not_or] at hc
    simp [dispatch, hi.noStart, hi.noEnd, hf, hc, startsPlain, hs]
  · have hb := isBlank_of_not_space hn
    simp [dispatch, hi.noStart, hi.noEnd, hf, hc, hn, hb, startsPlain]
  · simp [dispatch, hi.noStart, hi.noEnd, hf, hc, hn, startsPlain]

theorem dispatch_quoted (h : peek s.rest 0 = '"') : s.dispatch = s.quoted true := by
  simp [dispatch, atDocumentMark, h]

theorem dispatch_value (h : peek s.rest 0 = ':') (hn : isSpace (peek s.rest 1) = true) :
    s.dispatch = s.value := by
  simp [dispatch, atDocumentMark, h, hn]

theorem dispatch_question (h : peek s.rest 0 = '?') (hn : isSpace (peek s.rest 1) = true) :
    s.dispatch = s.key := by
  simp [dispatch, atDocumentMark, h, hn]

theorem dispatch_documentEnd (h : atDocumentMark '.' s.rest = true) :
    s.dispatch = s.margin.map fun s => (s.pass 3).push .documentEnd := by
  have hp : peek s.rest 0 = '.' := by
    simp only [atDocumentMark, Bool.and_eq_true, beq_iff_eq] at h
    exact h.1.1.1.2
  have hs : atDocumentMark '-' s.rest = false := by simp [atDocumentMark, hp]
  simp [dispatch, h, hp, hs]

theorem dispatch_dash (h : peek s.rest 0 = '-') (hn : isSpace (peek s.rest 1) = true) :
    s.dispatch = s.blockEntry := by
  have hd : (peek s.rest 1 == '-') = false := by
    rw [beq_eq_false_iff_ne]
    intro he
    rw [he] at hn
    revert hn
    decide
  simp [dispatch, atDocumentMark, h, hn, hd]

end RemoteCall.Yaml.Lexer
