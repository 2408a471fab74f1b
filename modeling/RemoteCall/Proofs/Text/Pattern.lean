import RemoteCall.Proofs.Text.Pieces
import RemoteCall.Text.Pattern

/-!
Patterns on lines. Main statement: where no word of a pattern holds the end of a line, the matches
in a text are those in its lines, one line after the other.
-/

namespace RemoteCall.Text

variable {α : Type} {next : List Char → Option α}

/-! ### Runs -/

/-- A run at the start of a text behind which one can go on. -/
def RunsTo (next : List Char → Option α) (cs run : List Char) (a : α) : Prop :=
  ∃ back, cs = run ++ back ∧ run ≠ [] ∧ '\n' ∉ run ∧ next back = some a

theorem not_runsTo_nil {run : List Char} {a : α} : ¬ RunsTo next [] run a := by
  rintro ⟨back, he, hn, -⟩
  exact hn (List.append_eq_nil_iff.1 he.symm).1

theorem runsTo_cons_iff {c : Char} {cs run : List Char} {a : α} :
    RunsTo next (c :: cs) run a ↔
      c ≠ '\n' ∧ (run = [c] ∧ next cs = some a ∨
        ∃ more, run = c :: more ∧ RunsTo next cs more a) := by
  constructor
  · rintro ⟨back, he, hn, hl, ha⟩
    cases run with
    | nil => exact absurd rfl hn
    | cons d more =>
      cases he
      rw [List.mem_cons, not_or] at hl
      refine ⟨Ne.symm hl.1, ?_⟩
      cases more with
      | nil => exact .inl ⟨rfl, ha⟩
      | cons e more => exact .inr ⟨_, rfl, back, rfl, List.cons_ne_nil e more, hl.2, ha⟩
  · rintro ⟨hc, ⟨rfl, ha⟩ | ⟨more, rfl, back, rfl, -, hl, ha⟩⟩
    · exact ⟨cs, rfl, List.cons_ne_nil c [], by simpa using Ne.symm hc, ha⟩
    · exact ⟨back, rfl, List.cons_ne_nil c more, by simp [Ne.symm hc, hl], ha⟩

theorem RunsTo.unique {cs run run' : List Char} {a a' : α} (h : RunsTo next cs run a)
    (h' : RunsTo next cs run' a') (hl : run.length = run'.length) : run = run' ∧ a = a' := by
  obtain ⟨back, rfl, -, -, ha⟩ := h
  obtain ⟨back', he, -, -, ha'⟩ := h'
  obtain ⟨rfl, rfl⟩ := List.append_inj he hl
  exact ⟨rfl, Option.some.inj (ha.symm.trans ha')⟩

/-- Among the runs behind which one can go on, this is the longest. -/
structure Longest (next : List Char → Option α) (cs run : List Char) (a : α) : Prop where
  runsTo : RunsTo next cs run a
  length_le : ∀ run' a', RunsTo next cs run' a' → run'.length ≤ run.length

theorem Longest.unique {cs run run' : List Char} {a a' : α} (h : Longest next cs run a)
    (h' : Longest next cs run' a') : run = run' ∧ a = a' :=
  h.runsTo.unique h'.runsTo
    (Nat.le_antisymm (h'.length_le run a h.runsTo) (h.length_le run' a' h'.runsTo))

theorem Longest.cons {c : Char} {cs run : List Char} {a : α} (hc : c ≠ '\n')
    (h : Longest next cs run a) : Longest next (c :: cs) (c :: run) a where
  runsTo := runsTo_cons_iff.2 ⟨hc, .inr ⟨run, rfl, h.runsTo⟩⟩
  length_le run' a' h' := by
    obtain ⟨-, ⟨rfl, -⟩ | ⟨more, rfl, hm⟩⟩ := runsTo_cons_iff.1 h'
    · simp
    · exact Nat.succ_le_succ (h.length_le more a' hm)

theorem takeRun?_cases (next : List Char → Option α) (cs : List Char) :
    (takeRun? next cs = none ∧ ∀ run a, ¬ RunsTo next cs run a) ∨
      ∃ run a, takeRun? next cs = some (run, a) ∧ Longest next cs run a := by
  induction cs with
  | nil => exact .inl ⟨rfl, fun run a => not_runsTo_nil⟩
  | cons c cs ih =>
    rw [takeRun?]
    by_cases hc : c = '\n'
    · rw [if_pos hc]
      exact .inl ⟨rfl, fun run a h => (runsTo_cons_iff.1 h).1 hc⟩
    · rw [if_neg hc]
      rcases ih with ⟨he, hn⟩ | ⟨run, a, he, hr⟩
      · rw [he]
        cases ha : next cs with
        | none =>
          refine .inl ⟨rfl, fun run a h => ?_⟩
          obtain ⟨-, ⟨-, h⟩ | ⟨more, -, hm⟩⟩ := runsTo_cons_iff.1 h
          · cases ha.symm.trans h
          · exact hn more a hm
        | some a =>
          refine .inr ⟨[c], a, rfl, runsTo_cons_iff.2 ⟨hc, .inl ⟨rfl, ha⟩⟩,
            fun run' a' h => ?_⟩
          obtain ⟨-, ⟨rfl, -⟩ | ⟨more, -, hm⟩⟩ := runsTo_cons_iff.1 h
          · exact Nat.le_refl _
          · exact absurd hm (hn more a')
      · rw [he]
        exact .inr ⟨c :: run, a, rfl, hr.cons hc⟩

theorem takeRun?_eq_some_iff {cs run : List Char} {a : α} :
    takeRun? next cs = some (run, a) ↔ Longest next cs run a := by
  rcases takeRun?_cases next cs with ⟨he, hn⟩ | ⟨run', a', he, hr⟩
  · exact iff_of_false (by rw [he]; nofun) fun h => hn run a h.runsTo
  · rw [he]
    constructor
    · intro h
      cases h
      exact hr
    · intro h
      obtain ⟨rfl, rfl⟩ := hr.unique h
      rfl

/-! ### Lines -/

/-- The rest of a text behind a line of it. -/
def EndsLine (tail : List Char) : Prop := ∀ c ∈ tail.head?, c = '\n'

variable {line tail : List Char}

theorem afterStart?_line {w : List Char} (hw : '\n' ∉ w) (ht : EndsLine tail) :
    afterStart? w (line ++ tail) = (afterStart? w line).map (· ++ tail) := by
  induction w generalizing line with
  | nil => rfl
  | cons c w ih =>
    rw [List.mem_cons, not_or] at hw
    cases line with
    | cons d line =>
      rw [List.cons_append, afterStart?, afterStart?]
      split
      · exact ih hw.2
      · rfl
    | nil =>
      cases tail with
      | nil => rfl
      | cons d tail =>
        cases ht d rfl
        exact if_neg (Ne.symm hw.1)

theorem takeRun?_line {next' : List Char → Option α} {f : α → α} (hl : '\n' ∉ line)
    (ht : EndsLine tail)
    (hn : ∀ back, '\n' ∉ back → next' (back ++ tail) = (next back).map f) :
    takeRun? next' (line ++ tail) = (takeRun? next line).map fun (run, a) => (run, f a) := by
  induction line with
  | nil =>
    cases tail with
    | nil => rfl
    | cons d tail =>
      cases ht d rfl
      rfl
  | cons c line ih =>
    rw [List.mem_cons, not_or] at hl
    rw [List.cons_append, takeRun?, takeRun?, if_neg (Ne.symm hl.1), if_neg (Ne.symm hl.1), ih hl.2,
      hn line hl.2]
    cases takeRun? next line with
    | some found => rfl
    | none => cases next line <;> rfl

namespace Pattern

variable {p : Pattern}

/-- The words of a pattern do not hold the end of a line. -/
def OnLine (p : Pattern) : Prop := ∀ w, Piece.word w ∈ p → '\n' ∉ w

/-- A match that begins on a line ends on it. -/
theorem match?_line (hp : p.OnLine) (hl : '\n' ∉ line) (ht : EndsLine tail) :
    p.match? (line ++ tail) = (p.match? line).map fun (runs, rest) => (runs, rest ++ tail) := by
  induction p generalizing line with
  | nil => rfl
  | cons piece p ih =>
    have hp' : Pattern.OnLine p := fun w hw => hp w (List.mem_cons_of_mem piece hw)
    cases piece with
    | word w =>
      rw [match?, match?, afterStart?_line (hp w List.mem_cons_self) ht]
      cases ha : afterStart? w line with
      | none => rfl
      | some rest =>
        rw [afterStart?_eq_some_iff] at ha
        exact ih hp' fun hm => hl (ha ▸ List.mem_append_right w hm)
    | run =>
      rw [match?, match?, takeRun?_line hl ht fun back hb => ih hp' hb]
      cases takeRun? (match? p) line <;> rfl

theorem findBehind_append {n : Nat} {front : List Char} (h : front.length = n) (cs : List Char) :
    p.findBehind n (front ++ cs) = p.findAll cs := by
  induction front generalizing n with
  | nil =>
    cases h
    rfl
  | cons c front ih =>
    cases h
    exact ih rfl

theorem findAll_of_match {c : Char} {front rest : List Char} {runs : List (List Char)}
    (h : p.match? (c :: (front ++ rest)) = some (runs, rest)) :
    p.findAll (c :: (front ++ rest)) = runs :: p.findAll rest := by
  simp only [findAll, findBehind, h, List.length_append, Nat.add_sub_cancel]
  exact congrArg (runs :: ·) (findBehind_append rfl rest)

theorem findAll_of_no_match {c : Char} {cs : List Char} (h : p.match? (c :: cs) = none) :
    p.findAll (c :: cs) = p.findAll cs := by
  simp only [findAll, findBehind, h]

theorem findBehind_line (hp : p.OnLine) (he : p.match? [] = none) (hl : '\n' ∉ line)
    (cs : List Char) {n : Nat} (hn : n ≤ line.length) :
    p.findBehind n (line ++ '\n' :: cs) = p.findBehind n line ++ p.findAll cs := by
  have ht : EndsLine ('\n' :: cs) := fun c hc => (Option.some.inj hc).symm
  induction line generalizing n with
  | nil =>
    cases Nat.le_zero.1 hn
    have hm : p.match? ('\n' :: cs) = none := by
      rw [← List.nil_append ('\n' :: cs), match?_line hp List.not_mem_nil ht, he]
      rfl
    simp only [List.nil_append, findBehind, hm, findAll]
  | cons c line ih =>
    have hl' : '\n' ∉ line := fun hm => hl (List.mem_cons_of_mem c hm)
    cases n with
    | succ n => exact ih hl' (Nat.le_of_succ_le_succ hn)
    | zero =>
      have hm := match?_line hp hl ht
      rw [List.cons_append] at hm
      simp only [List.cons_append, findBehind, hm]
      cases p.match? (c :: line) with
      | none => exact ih hl' (Nat.zero_le _)
      | some found =>
        obtain ⟨runs, rest⟩ := found
        simp only [Option.map_some, List.length_append, Nat.add_sub_add_right, List.cons_append]
        rw [ih hl' (Nat.sub_le _ _)]

theorem findAll_eq_flatMap (hp : p.OnLine) (he : p.match? [] = none) (cs : List Char) :
    p.findAll cs = (fields '\n' cs).flatMap p.findAll := by
  by_cases hm : '\n' ∈ cs
  · obtain ⟨line, rest, hc, hl⟩ := List.eq_append_cons_of_mem hm
    have hr := findAll_eq_flatMap hp he rest
    rw [hc, fields_append_cons hl, List.flatMap_cons, ← hr]
    exact findBehind_line hp he hl rest (Nat.zero_le _)
  · rw [fields_of_not_mem hm, List.flatMap_singleton]
termination_by cs.length
decreasing_by
  rw [hc, List.length_append, List.length_cons]
  omega

end Pattern

end RemoteCall.Text
