import RemoteCall.Text.Cut

/-! First occurrences in a list: `cut?` finds exactly those, and whether one is the first depends on
nothing behind it. -/

namespace RemoteCall.Text

variable {α : Type}

theorem infix_of_infix_append {n : α} {needle xs ys : List α} (hn : n ∉ xs)
    (h : n :: needle <:+: xs ++ ys) : n :: needle <:+: ys := by
  induction xs with
  | nil => exact h
  | cons x xs ih =>
    simp only [List.mem_cons, not_or] at hn
    cases List.infix_cons_iff.1 h with
    | inl hp => exact absurd (List.cons_prefix_cons.1 hp).1 hn.1
    | inr hi => exact ih hn.2 hi

theorem infix_of_infix_append_cons {x : α} {needle xs ys : List α} (hn : needle ≠ [])
    (hx : x ∉ needle) (h : needle <:+: xs ++ x :: ys) : needle <:+: xs ∨ needle <:+: ys := by
  have hp : ∀ l, l <+: x :: ys → x ∉ l → l = [] := by
    intro l hl hxl
    cases l with
    | nil => rfl
    | cons y l => exact absurd (List.mem_cons.2 (.inl (List.cons_prefix_cons.1 hl).1.symm)) hxl
  rcases List.infix_append_iff.1 h with h | h | ⟨l, r, rfl, hl, hr⟩
  · exact .inl h
  · cases List.infix_cons_iff.1 h with
    | inl h => exact absurd (hp needle h hx) hn
    | inr h => exact .inr h
  · rw [hp r hr (fun hm => hx (List.mem_append_right l hm)), List.append_nil]
    exact .inl hl.isInfix

theorem infix_of_infix_between {needle xs mid ys : List α} (hn : needle ≠ []) (hm : mid ≠ [])
    (hx : ∀ x ∈ mid, x ∉ needle) (h : needle <:+: xs ++ (mid ++ ys)) :
    needle <:+: xs ∨ needle <:+: ys := by
  induction mid generalizing xs with
  | nil => exact absurd rfl hm
  | cons x mid ih =>
    cases infix_of_infix_append_cons hn (hx x List.mem_cons_self) h with
    | inl h => exact .inl h
    | inr h =>
      by_cases he : mid = []
      · subst he
        exact .inr h
      · have ht := ih he (fun y hy => hx y (List.mem_cons_of_mem x hy))
          (show needle <:+: [] ++ (mid ++ ys) from h)
        exact .inr (ht.resolve_left fun hi => hn (List.infix_nil.1 hi))

theorem append_cons_cases {x : α} {us ws xs ys : List α} (hx : x ∉ xs)
    (h : us ++ x :: ws = xs ++ x :: ys) :
    us = xs ∨ ∃ vs, us = xs ++ x :: vs ∧ vs ++ x :: ws = ys := by
  rcases List.append_eq_append_iff.1 h with ⟨as, ha, hs⟩ | ⟨bs, hb, hs⟩
  · cases as with
    | nil => exact .inl (by simpa using ha.symm)
    | cons a as =>
      cases hs
      simp [ha] at hx
  · cases bs with
    | nil => exact .inl (by simpa using hb)
    | cons b bs =>
      cases hs
      exact .inr ⟨bs, hb, rfl⟩

/-- What ends with the only `x` in it stands just before an `x`. -/
theorem suffix_or_infix_of_concat {x : α} {needle xs ys : List α} (hn : x ∉ needle)
    (hx : x ∉ xs) (h : needle ++ [x] <:+: xs ++ x :: ys) :
    needle <:+ xs ∨ needle ++ [x] <:+: ys := by
  obtain ⟨us, ws, he⟩ := h
  rw [← List.append_assoc, List.append_assoc _ [x] ws] at he
  rcases append_cons_cases hx he with ha | ⟨vs, hv, rfl⟩
  · exact .inl ⟨us, ha⟩
  · rcases List.append_eq_append_iff.1 hv with ⟨as, -, hs⟩ | ⟨bs, -, hs⟩
    · exact absurd (hs ▸ List.mem_append_right as List.mem_cons_self) hn
    · cases bs with
      | nil => exact absurd (hs ▸ List.mem_cons_self : x ∈ [] ++ needle) hn
      | cons b bs =>
        cases hs
        exact .inr ⟨bs, ws, by simp⟩

/-- `needle` stands in `xs` between `before` and `after`, and nowhere sooner. -/
structure First (needle xs before after : List α) : Prop where
  eq : xs = before ++ needle ++ after
  le : ∀ b a, xs = b ++ needle ++ a → before.length ≤ b.length

namespace First

variable {needle xs before after : List α}

theorem unique {b a : List α} (h : First needle xs before after) (k : First needle xs b a) :
    before = b ∧ after = a := by
  have hl : before.length = b.length := Nat.le_antisymm (h.le b a k.eq) (k.le before after h.eq)
  have he := h.eq.symm.trans k.eq
  simp only [List.append_assoc] at he
  obtain ⟨hb, hr⟩ := List.append_inj he hl
  exact ⟨hb, (List.append_right_inj needle).1 hr⟩

theorem prefix_dropLast_of_append (before needle after : List α) :
    before ++ needle.dropLast <+: before ++ needle ++ after := by
  rw [List.append_assoc, List.prefix_append_right_inj]
  exact (List.dropLast_prefix needle).trans (List.prefix_append needle after)

/-- An occurrence that starts sooner would end inside `before` and all of `needle` but its end. -/
theorem iff_not_occurring (hn : needle ≠ []) :
    First needle xs before after ↔
      xs = before ++ needle ++ after ∧ ¬ needle <:+: before ++ needle.dropLast := by
  have hpos := List.length_pos_iff.2 hn
  constructor
  · intro h
    refine ⟨h.eq, ?_⟩
    rintro ⟨b, a, hba⟩
    obtain ⟨t, ht⟩ := prefix_dropLast_of_append before needle after
    have hle := h.le b (a ++ t) (by rw [h.eq, ← ht, ← hba, List.append_assoc])
    have hl := congrArg List.length hba
    simp only [List.length_append, List.length_dropLast] at hl
    omega
  · rintro ⟨rfl, h⟩
    refine ⟨rfl, fun b a hba => Nat.le_of_not_lt fun hlt => h ?_⟩
    have hp : b ++ needle <+: before ++ needle.dropLast := by
      apply List.prefix_of_prefix_length_le _ (prefix_dropLast_of_append before needle after)
      · simp only [List.length_append, List.length_dropLast]
        omega
      · exact ⟨a, hba.symm⟩
    exact List.infix_append_right.trans hp.isInfix

theorem nil_before (needle after : List α) : First needle (needle ++ after) [] after :=
  ⟨rfl, fun _ _ _ => Nat.zero_le _⟩

theorem replace_after (hn : needle ≠ []) (h : First needle xs before after) (rest : List α) :
    First needle (before ++ needle ++ rest) before rest :=
  (iff_not_occurring hn).2 ⟨rfl, ((iff_not_occurring hn).1 h).2⟩

theorem not_infix_take (hn : needle ≠ []) (h : First needle xs before after) {k : Nat}
    (hk : k < before.length + needle.length) : ¬ needle <:+: xs.take k := by
  intro hi
  apply ((iff_not_occurring hn).1 h).2
  have hp : xs.take k <+: before ++ needle.dropLast := by
    apply List.prefix_of_prefix_length_le (List.take_prefix k xs)
    · exact h.eq ▸ prefix_dropLast_of_append before needle after
    · simp only [List.length_append, List.length_dropLast, List.length_take]
      omega
  exact hi.trans hp.isInfix

theorem cons {x : α} (h : First needle xs before after) (hx : ¬ needle <+: x :: xs) :
    First needle (x :: xs) (x :: before) after := by
  refine ⟨by rw [h.eq]; rfl, fun b a hba => ?_⟩
  cases b with
  | nil => exact absurd ⟨a, hba.symm⟩ hx
  | cons y b =>
    simp only [List.cons_append, List.cons.injEq] at hba
    exact Nat.succ_le_succ (h.le b a hba.2)

theorem of_cons {x y : α} (h : First needle (x :: xs) (y :: before) after) :
    ¬ needle <+: x :: xs ∧ First needle xs before after := by
  refine ⟨fun ⟨a, ha⟩ => ?_, (List.cons.inj h.eq).2, fun b a hba => ?_⟩
  · exact absurd (h.le [] a ha.symm) (Nat.not_succ_le_zero _)
  · exact Nat.le_of_succ_le_succ (h.le (x :: b) a (congrArg (x :: ·) hba))

theorem append {more rest : List α} (h : First needle xs before after)
    (hr : after = more ++ rest) : First (needle ++ more) xs before rest := by
  refine ⟨by rw [h.eq, hr]; simp, fun b a hba => ?_⟩
  apply h.le b (more ++ a)
  rw [hba]
  simp

end First

variable [DecidableEq α] {needle xs before after : List α}

theorem afterStart?_eq_some_iff : afterStart? needle xs = some after ↔ xs = needle ++ after := by
  induction needle generalizing xs with
  | nil => simp [afterStart?]
  | cons n needle ih =>
    cases xs with
    | nil => simp [afterStart?]
    | cons x xs =>
      by_cases h : n = x
      · subst h
        simp [afterStart?, ih]
      · simp [afterStart?, h, Ne.symm h]

theorem afterStart?_eq_none_iff : afterStart? needle xs = none ↔ ¬ needle <+: xs := by
  rw [Option.eq_none_iff_forall_ne_some]
  simp only [ne_eq, afterStart?_eq_some_iff]
  constructor
  · rintro h ⟨t, rfl⟩
    exact h t rfl
  · rintro h t rfl
    exact h ⟨t, rfl⟩

theorem isSome_afterStart?_iff : (afterStart? needle xs).isSome ↔ needle <+: xs := by
  rw [← Option.ne_none_iff_isSome, ne_eq, afterStart?_eq_none_iff, Classical.not_not]

@[simp] theorem afterStart?_append (needle after : List α) :
    afterStart? needle (needle ++ after) = some after :=
  afterStart?_eq_some_iff.2 rfl

theorem first_of_cut? (h : cut? needle xs = some (before, after)) :
    First needle xs before after := by
  induction xs generalizing before with
  | nil =>
    simp only [cut?] at h
    split at h
    · next hn =>
      cases h
      rw [hn]
      exact First.nil_before [] []
    · cases h
  | cons x xs ih =>
    simp only [cut?] at h
    split at h
    · next hs =>
      cases h
      rw [afterStart?_eq_some_iff.1 hs]
      exact First.nil_before needle after
    · next hs =>
      obtain ⟨⟨b, a⟩, hb, he⟩ := Option.map_eq_some_iff.1 h
      cases he
      exact (ih hb).cons (afterStart?_eq_none_iff.1 hs)

theorem cut?_eq_none_iff : cut? needle xs = none ↔ ¬ needle <:+: xs := by
  induction xs with
  | nil => simp [cut?]
  | cons x xs ih =>
    rw [List.infix_cons_iff, not_or, ← ih, ← afterStart?_eq_none_iff]
    simp only [cut?]
    cases afterStart? needle (x :: xs) <;> simp

theorem cut?_eq_some_iff :
    cut? needle xs = some (before, after) ↔ First needle xs before after := by
  refine ⟨first_of_cut?, fun h => ?_⟩
  cases hc : cut? needle xs with
  | none => exact absurd ⟨before, after, h.eq.symm⟩ (cut?_eq_none_iff.1 hc)
  | some found =>
    obtain ⟨rfl, rfl⟩ := (first_of_cut? hc).unique h
    rfl

theorem occurs_eq_true_iff : occurs needle xs = true ↔ needle <:+: xs := by
  rw [occurs, ← Option.ne_none_iff_isSome, ne_eq, cut?_eq_none_iff, Classical.not_not]

theorem occurs_eq_false_iff : occurs needle xs = false ↔ ¬ needle <:+: xs := by
  rw [← occurs_eq_true_iff, Bool.not_eq_true]

end RemoteCall.Text
