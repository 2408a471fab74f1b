import RemoteCall.Proofs.Json.Fraction
import RemoteCall.Proofs.Yaml.Step

/-!
What is written without quotes. Text is, if it reads back as itself when it stands alone; this makes
it words that begin like a plain scalar, so that it reads back wherever it stands.
-/

namespace RemoteCall.Yaml

open Json (Fractional isFractionChar floatChars_eq)
open Numeric (isDigit)

variable {c : Char} {cs : List Char} {s : String}

/-! ### Words of small letters and digits -/

def wordAlphabet : List Char := "+-.0123456789abcdefghijklmnopqrstuvwxyz".toList

theorem wordChar_of_mem (h : c ∈ wordAlphabet) : WordChar c := by
  have hv : ∀ c ∈ wordAlphabet,
    isOtherBreak c = false ∧ isBreak c = false ∧ isSpace c = false ∧
      c ≠ ':' ∧ c ≠ '#' ∧ c ≠ '\uFEFF' := List.all_iff_forall_prop.1 (by decide)
  obtain ⟨h₁, h₂, h₃, h₄, h₅, h₆⟩ := hv c h
  exact ⟨⟨h₁, h₂⟩, h₃, h₄, h₅, h₆⟩

theorem written_word (hc : ∀ c ∈ cs, c ∈ wordAlphabet) (hl : Lead cs)
    (hd : cs.head? ≠ some '.') : Written cs (.scalar (String.ofList cs) true) := by
  refine .plain (.last ⟨?_, fun c h => wordChar_of_mem (hc c h)⟩) hl ?_
  · rintro rfl
    cases hl
  · rintro ⟨rest, rfl, -⟩
    exact hd rfl

theorem mem_wordAlphabet (h : isFractionChar c = true) : c ∈ wordAlphabet := by
  have hd : ∀ c ∈ Numeric.digits, c ∈ wordAlphabet := List.all_iff_forall_prop.1 (by decide)
  have hs : ∀ c ∈ ['.', 'e', '+', '-'], c ∈ wordAlphabet :=
    List.all_iff_forall_prop.1 (by decide)
  simp only [isFractionChar, Bool.or_eq_true, decide_eq_true_eq] at h
  exact h.elim (fun h => hd c (Numeric.mem_digits h)) (hs c)

theorem written_signed {d : Char} (hd : isDigit d = true)
    (hc : ∀ c ∈ cs, isFractionChar c = true) (negative : Bool) :
    Written ((if negative then ['-'] else []) ++ d :: cs)
      (.scalar (String.ofList ((if negative then ['-'] else []) ++ d :: cs)) true) := by
  have hv :
    ∀ d ∈ Numeric.digits, d ∉ Lexer.signs ∧ isSpace d = false ∧ d ≠ '-' ∧ d ≠ '.' :=
    List.all_iff_forall_prop.1 (by decide)
  obtain ⟨h₁, h₂, h₃, h₄⟩ := hv d (Numeric.mem_digits hd)
  have hm : ∀ c ∈ d :: cs, c ∈ wordAlphabet :=
    List.forall_mem_cons.2 ⟨mem_wordAlphabet (Json.isFractionChar_of_digit hd),
      fun c h => mem_wordAlphabet (hc c h)⟩
  cases negative with
  | false => exact written_word hm (.letter cs h₁) (by simpa using h₄)
  | true =>
    exact written_word (List.forall_mem_cons.2 ⟨by decide, hm⟩) (.minus cs h₂ h₃) (by simp)

theorem written_number (x : Json.Number) :
    Written x.chars (.scalar (String.ofList x.chars) true) := by
  cases x with
  | integer n =>
    obtain ⟨d, ds, hds, hd⟩ := Numeric.decimalDigits_eq_cons n.val.natAbs
    have hc : ∀ c ∈ ds, isFractionChar c = true := fun c h => by
      have hm : c ∈ Numeric.decimalDigits n.val.natAbs := hds ▸ List.mem_cons_of_mem d h
      exact Json.isFractionChar_of_digit (Numeric.isDigit_of_mem_decimalDigits hm)
    have he : Json.Number.chars (.integer n) =
        (if decide (n.val < 0) then ['-'] else []) ++ d :: ds := by
      rw [Json.Number.chars, Numeric.decimal, hds]
      by_cases h : n.val < 0 <;> simp [h]
    rw [he]
    exact written_signed hd hc _
  | float x =>
    obtain ⟨cs, hf, he⟩ := floatChars_eq x
    obtain ⟨d, ds, rfl, hd⟩ := hf.head
    rw [Json.Number.chars, he]
    exact written_signed hd (fun c h => hf.chars c (List.mem_cons_of_mem d h)) _

/-! ### Documents of one scalar -/

theorem glyphs_eq (ha : cs.all isAllowed = true) (hm : cs.head? ≠ some '\uFEFF') :
    glyphs cs = .ok (glyphsFrom .start cs) := by
  rw [glyphs, if_pos ha]
  intro ds hd
  rw [hd] at hm
  exact hm rfl

theorem all_isAllowed_of_glyphs {gs : List Glyph} (h : glyphs cs = .ok gs) :
    cs.all isAllowed = true := by
  refine Decidable.byContradiction fun ha => ?_
  unfold glyphs at h
  rw [if_neg ha] at h
  cases h

theorem compose_scalar (s : String) :
    compose [.scalar s true, .streamEnd] = .ok (.scalar .none s true) := by
  rfl

theorem compose_documentEnd (ts : List Token) : compose (.documentEnd :: ts) = .error .misfit := by
  have hd : Composing.directives (.documentEnd :: ts) false [] = .ok (.documentEnd :: ts, []) := rfl
  rw [compose, hd]
  simp [bind, Except.bind, pure, Except.pure, Composing.endsDocument, Composing.node]
  rfl

theorem toJson_scalar (s : String) :
    Node.toJson (.scalar .none s true) = plainJson s := by
  have hb : ∀ budget, Node.value (.scalar .none s true) depthLimit (.scalar .none s true) budget =
      (plainJson s).map fun v => (v, budget) := by
    intro budget
    rw [Node.value]
    rfl
  rw [Node.toJson, hb]
  cases plainJson s <;> rfl

theorem yields_scalar {p : Lexer.Progress} {m : Mark} (hp : p.indent = -1) (hw : Words cs)
    (hi : Inside (glyphsFrom m cs))
    (hb : Lexer.BeginsPlain (peek (glyphsFrom m cs) 0) (peek (glyphsFrom m cs) 1)) (fresh : Bool) :
    (Lexer.before p m cs none fresh).Yields
      (.ok (p.made.reverse ++ [.scalar (String.ofList cs) true, .streamEnd])) := by
  have hk : ∀ c ∈ Lexer.noted p m fresh, c.required = false := by
    intro c hc
    cases fresh with
    | false => cases hc
    | true =>
      cases hc
      simp [hp]
  rw [← List.append_nil cs] at hi hb
  have hr := Lexer.Reaches.plain (p := p) hw hi hb .stop (by omega) fresh
  rw [List.append_nil] at hr
  have hy := hr _ (Lexer.yields_end (p := p.add _) hp hk _ _)
  simpa [Lexer.Progress.add] using hy

/-! ### Safe text -/

/-- Text that is written without quotes. -/
structure Safe (cs : List Char) : Prop where
  ne_nil : cs ≠ []
  trimmed : Text.trim cs = cs
  start : ∀ c ∈ cs.head?, c ∉ ['-', '?', '<', '=', '~']
  raw : ∀ c ∈ cs, needsEscape c = false ∧ c ∉ indicators
  readsBack : parse cs = .ok (.string (String.ofList cs))

theorem safe_of_isPlainSafe (h : isPlainSafe s = true) : Safe s.toList := by
  simp only [isPlainSafe, Bool.and_eq_true] at h
  obtain ⟨⟨⟨⟨⟨hn, ht⟩, hh⟩, hr⟩, -⟩, hp⟩ := h
  refine ⟨by simpa using hn, by simpa using ht, ?_, ?_, ?_⟩
  · intro c hc
    rw [hc] at hh
    simpa using hh
  · intro c hc
    simp only [Bool.not_eq_true', List.any_eq_false] at hr
    simpa using hr c hc
  · split at hp
    · next t he =>
      have ht : t = s := by simpa using hp
      rw [he, ht, String.ofList_toList]
    · cases hp

namespace Safe

theorem wordChar (h : Safe cs) (hc : c ∈ cs) : c = ' ' ∨ WordChar c := by
  obtain ⟨hr, hn⟩ := h.raw c hc
  by_cases hs : c = ' '
  · exact .inl hs
  · refine .inr ⟨onLine_of_raw hr, isSpace_of_raw hr hs, ?_, ?_, ?_⟩
    · rintro rfl
      exact hn (by decide)
    · rintro rfl
      exact hn (by decide)
    · rintro rfl
      cases hr

theorem words (h : Safe cs) : Words cs := by
  have hb : ∀ c, Text.isBlank c = false → c ≠ ' ' := by
    rintro c hc rfl
    cases hc
  exact words_of_trimmed (fun c hc => h.wordChar hc)
    (fun c hc => hb c (Text.not_head_of_dropBothWhile_eq_self h.trimmed c hc))
    (fun c hc => hb c (Text.not_last_of_dropBothWhile_eq_self h.trimmed c hc)) h.ne_nil

theorem lead (h : Safe cs) : Lead cs := by
  have hv : ∀ c ∈ Lexer.signs, c ∈ ['-', '?', '<', '=', '~'] ∨ c ∈ indicators :=
    List.all_iff_forall_prop.1 (by decide)
  obtain ⟨c, cs, rfl⟩ := List.exists_cons_of_ne_nil h.ne_nil
  refine .letter cs fun hc => ?_
  exact (hv c hc).elim (h.start c rfl) (h.raw c List.mem_cons_self).2

theorem glyphs_eq (h : Safe cs) : glyphs cs = .ok (glyphsFrom .start cs) := by
  have hp := h.readsBack
  simp only [parse, tokens, Outcome.bind_eq_ok_iff] at hp
  obtain ⟨ts, ⟨gs, hg, -⟩, -⟩ := hp
  refine Yaml.glyphs_eq (all_isAllowed_of_glyphs hg) fun hm => ?_
  have hr := (h.raw _ (List.mem_of_mem_head? hm)).1
  cases hr

theorem tokens_eq (h : Safe cs) {r : Except Obstruction (List Token)}
    (hy : (Lexer.before .none .start cs none true).Yields r) : tokens cs = r := by
  rw [tokens, h.glyphs_eq]
  exact hy _ (Nat.lt_succ_of_le (Lexer.skipGaps_length_le _))

/-- The end of a document comes first, or an error. -/
def EndsFirst (s : Lexer) : Prop :=
  ∃ r, s.Yields r ∧ ∀ ts, r = .ok ts → ∃ us, ts = .documentEnd :: us

theorem EndsFirst.of_reaches {s t : Lexer} (h : EndsFirst t) (hr : s.Reaches t) : EndsFirst s := by
  obtain ⟨r, hy, hts⟩ := h
  exact ⟨r, hr r hy, hts⟩

theorem EndsFirst.of_tokens {s : Lexer} {us : List Token}
    (h : s.Yields (.ok (.documentEnd :: us))) : EndsFirst s := by
  refine ⟨_, h, ?_⟩
  rintro ts ⟨⟩
  exact ⟨us, rfl⟩

theorem EndsFirst.of_error {s : Lexer} {e : Obstruction} (h : s.Yields (.error e)) : EndsFirst s :=
  ⟨_, h, fun _ h => nomatch h⟩

/-- Where no key may begin there is a scalar behind the end of a document, or nothing that can be
read. -/
theorem endsFirst_words {m : Mark} (hm : 0 < m.column) (hw : Words cs)
    (hi : ∀ c ∈ cs, c ∉ indicators) :
    EndsFirst (.before ⟨[.documentEnd], -1, []⟩ m cs none false) := by
  have hin : Inside (glyphsFrom m cs) := .of_column (by rwa [here_glyphsFrom])
  obtain ⟨c, ds, rfl, hc⟩ := hw.eq_cons
  have hp : peek (glyphsFrom m (c :: ds)) 0 = c := peek_glyphsFrom_cons hc.onLine m ds
  have hplain (hb : Lexer.BeginsPlain c (peek (glyphsFrom m (c :: ds)) 1)) :=
    EndsFirst.of_tokens
      (yields_scalar (p := ⟨[.documentEnd], -1, []⟩) rfl hw hin (by rwa [hp]) false)
  have hfail {e : Obstruction}
      (he :
        (Lexer.before ⟨[.documentEnd], -1, []⟩ m (c :: ds) none false).dispatch = .error e) :
      EndsFirst (.before ⟨[.documentEnd], -1, []⟩ m (c :: ds) none false) := by
    refine .of_error (e := e) (.of_error (.of_solid (hc.solid ds) rfl) ?_ ?_)
    · rw [Lexer.before, hp]
      rintro rfl
      cases hc.noSpace
    · rwa [Lexer.unroll_before (by simp)]
  by_cases hs : c ∈ Lexer.signs
  · have hv : ∀ c ∈ Lexer.signs, c = '-' ∨ c = '?' ∨ c ∈ indicators :=
      List.all_iff_forall_prop.1 (by decide)
    have hc₀ := hi c List.mem_cons_self
    cases hn : isSpace (peek (glyphsFrom m (c :: ds)) 1) with
    | true =>
      rcases hv c hs with rfl | rfl | h
      · exact hfail (Lexer.dispatch_dash hp hn)
      · exact hfail (Lexer.dispatch_question hp hn)
      · exact absurd h hc₀
    | false => exact hplain (.inr ⟨(hv c hs).imp_right fun h => h.resolve_right hc₀, hn⟩)
  · exact hplain (.inl ⟨hc.noSpace, hs⟩)

theorem reaches_documentEnd (hr : cs = [] ∨ ∃ ds, cs = ' ' :: ds) :
    (Lexer.before .none .start ('.' :: '.' :: '.' :: cs) none true).Reaches
      (.before ⟨[.documentEnd], -1, []⟩ (.along .start 3) cs none false) := by
  have hd := wordChar_of_mem (c := '.') (by decide)
  have hc : ∀ c ∈ ['.', '.', '.'], OnLine c := by simpa using hd.onLine
  have hg := glyphsFrom_append hc .start cs
  have hm : atDocumentMark '.' (glyphsFrom .start ('.' :: '.' :: '.' :: cs)) = true := by
    rcases hr with rfl | ⟨ds, rfl⟩ <;> rfl
  refine .of_dispatch (w := ['.', '.', '.']) (hd.solid _) rfl (by decide) ?_ ?_ hc
    (List.cons_ne_nil _ _) (Nat.le_refl _)
  · rw [hg]
    exact (by decide : '.' ≠ terminator)
  · refine (Lexer.dispatch_documentEnd hm).trans ?_
    rw [Lexer.margin_before rfl]
    simp only [Lexer.before, hg]
    rfl

theorem endsFirst (h : Safe ('.' :: '.' :: '.' :: cs)) (hc : ∀ c ∈ cs.head?, isSpace c = true) :
    EndsFirst (.before .none .start ('.' :: '.' :: '.' :: cs) none true) := by
  have hm : ∀ c ∈ cs, c ∈ '.' :: '.' :: '.' :: cs := fun c hc => by simp [hc]
  cases cs with
  | nil =>
    have hy := Lexer.yields_end (p := ⟨[.documentEnd], -1, []⟩) (k := none) rfl
      (fun _ h => nomatch h) (.along .start 3) false
    exact .of_reaches (.of_tokens hy) (reaches_documentEnd (.inl rfl))
  | cons c cs =>
    have hs : c = ' ' := by
      refine Decidable.byContradiction fun hn => ?_
      have := isSpace_of_raw (h.raw c (hm c List.mem_cons_self)).1 hn
      rw [hc c rfl] at this
      cases this
    subst hs
    have hl : ∀ c ∈ (' ' :: cs).getLast?, c ≠ ' ' := by
      rintro c hc rfl
      have := Text.not_last_of_dropBothWhile_eq_self h.trimmed ' ' (by simpa using hc)
      cases this
    obtain ⟨n, ds, hds, hw⟩ := exists_words (fun c hc => h.wordChar (hm c hc)) hl
      (List.cons_ne_nil _ _)
    have hi : ∀ d ∈ ds, d ∉ indicators := fun d hd =>
      (h.raw d (hm d (hds ▸ List.mem_append_right _ hd))).2
    have hr := reaches_documentEnd (.inr ⟨cs, rfl⟩)
    rw [hds] at hr ⊢
    refine .of_reaches (endsFirst_words ?_ hw hi)
      (hr.trans (.over_padding (by simpa using hw.solid []) n))
    rw [Mark.along_column, Mark.along_column]
    omega

theorem not_endsDocument (h : Safe cs) : ¬ EndsDocument cs := by
  rintro ⟨rest, rfl, hr⟩
  have hp := h.readsBack
  obtain ⟨r, hy, hts⟩ := h.endsFirst hr
  rw [parse, h.tokens_eq hy] at hp
  cases r with
  | error e => cases hp
  | ok ts =>
    obtain ⟨us, rfl⟩ := hts ts rfl
    simp only [bind, Except.bind, compose_documentEnd] at hp
    cases hp

theorem plainJson_eq (h : Safe cs) :
    plainJson (String.ofList cs) = .ok (.string (String.ofList cs)) := by
  have hi : Inside (glyphsFrom .start cs) := by
    have hf : Follows 0 (Mark.along .start cs.length) [] false _ [] := .stop
    have hi := inside_plain h.words h.lead h.not_endsDocument hf
    rwa [List.append_nil] at hi
  have hb := h.lead.beginsPlain h.words .start []
  rw [List.append_nil] at hb
  have ht := h.tokens_eq (yields_scalar rfl h.words hi hb true)
  have hc : compose (Lexer.Progress.none.made.reverse ++
      [.scalar (String.ofList cs) true, .streamEnd]) =
        .ok (.scalar .none (String.ofList cs) true) :=
    compose_scalar _
  have hp := h.readsBack
  simp only [parse, ht, bind, Except.bind, hc, toJson_scalar] at hp
  exact hp

end Safe

/-! ### How text is written -/

def textToken (s : String) : Token := .scalar s (isPlainSafe s)

theorem written_text (s : String) : Written (textChars s) (textToken s) := by
  rw [textChars, textToken]
  cases h : isPlainSafe s with
  | true =>
    have hs := safe_of_isPlainSafe h
    have hw := Written.plain hs.words hs.lead hs.not_endsDocument
    rwa [String.ofList_toList] at hw
  | false =>
    have hw := Written.quoted s.toList
    rwa [String.ofList_toList] at hw

/-- Text that is written without quotes is no number, no truth value and not null. -/
theorem plainJson_of_isPlainSafe (h : isPlainSafe s = true) : plainJson s = .ok (.string s) := by
  have hs := (safe_of_isPlainSafe h).plainJson_eq
  rwa [String.ofList_toList] at hs

end RemoteCall.Yaml
