import RemoteCall.Proofs.Json.Value
import RemoteCall.Proofs.Yaml.Safe

/-!
The tokens of a printed value. A value is read at the column where it stands, whether that is the
start of its own line, behind a dash or behind a key, and the lexer is then at the start of the line
after it with no more blocks open than before.
-/

namespace RemoteCall.Yaml

/-! ### Tokens -/

mutual

def tokensOf : Json → List Token
  | .array [] => [.flowSequence, .flowSequenceEnd]
  | .array (v :: vs) => .blockSequence :: itemsTokens (v :: vs) ++ [.blockEnd]
  | .object [] => [.flowMapping, .flowMappingEnd]
  | .object (e :: es) => .blockMapping :: entriesTokens (e :: es) ++ [.blockEnd]
  | .string s => [textToken s]
  | v => [.scalar (String.ofList (inlineChars v)) true]

def itemsTokens : List Json → List Token
  | [] => []
  | v :: vs => .blockEntry :: tokensOf v ++ itemsTokens vs

def entriesTokens : List (String × Json) → List Token
  | [] => []
  | (k, v) :: es => .key :: textToken k :: .value :: tokensOf v ++ entriesTokens es

end

def itemTokens (v : Json) : List Token := .blockEntry :: tokensOf v

def entryTokens (e : String × Json) : List Token :=
  .key :: textToken e.1 :: .value :: tokensOf e.2

theorem itemsTokens_eq (vs : List Json) : itemsTokens vs = vs.flatMap itemTokens := by
  induction vs with
  | nil => rfl
  | cons v vs ih => rw [itemsTokens, ih, List.flatMap_cons, itemTokens]

theorem entriesTokens_eq (es : List (String × Json)) :
    entriesTokens es = es.flatMap entryTokens := by
  induction es with
  | nil => rfl
  | cons e es ih =>
    rw [entriesTokens, ih, List.flatMap_cons, entryTokens]

/-! ### Text -/

/-- A value as it stands at a column: a block without the indentation of its first line, or one line
with its end. -/
def valueChars (n : Nat) (v : Json) : List Char :=
  if isBlock v then (blockChars n v).drop n else inlineChars v ++ ['\n']

/-- What stands between a dash and its item. -/
def itemGap (v : Json) : List Char := padding (if isBlock v then 3 else 1)

/-- What stands between a colon and its value, in a block at the given column. -/
def entryGap (n : Nat) (v : Json) : List Char :=
  if isBlock v then '\n' :: padding (n + step) else [' ']

variable {n : Nat} {v : Json} {vs : List Json} {k : String} {es : List (String × Json)}

theorem blockChars_eq (h : isBlock v = true) (n : Nat) :
    blockChars n v = padding n ++ valueChars n v := by
  have hp : ∃ cs, blockChars n v = padding n ++ cs := by
    cases v with
    | array items =>
      cases items with
      | nil => cases h
      | cons v vs =>
        rw [blockChars, itemsChars]
        split <;> simp only [line, List.append_assoc] <;> exact ⟨_, rfl⟩
    | object entries =>
      cases entries with
      | nil => cases h
      | cons e es =>
        rw [blockChars, entriesChars]
        split <;> simp only [line, List.append_assoc] <;> exact ⟨_, rfl⟩
    | _ => cases h
  obtain ⟨cs, hc⟩ := hp
  rw [valueChars, if_pos h, hc, List.drop_left' (length_padding n)]

/-- An item as it stands at the column of its dash. -/
def itemChars (n : Nat) (v : Json) : List Char := '-' :: (itemGap v ++ valueChars (n + step) v)

/-- An entry as it stands at the column of its key. -/
def entryChars (n : Nat) (e : String × Json) : List Char :=
  textChars e.1 ++ ':' :: (entryGap n e.2 ++ valueChars (n + step) e.2)

/-- The entries of a block from the start of a line on. -/
def linesOf {α : Type} (n : Nat) (chars : α → List Char) (xs : List α) : List Char :=
  xs.flatMap fun x => padding n ++ chars x

theorem linesOf_cons {α : Type} (n : Nat) (chars : α → List Char) (x : α) (xs : List α) :
    linesOf n chars (x :: xs) = padding n ++ (chars x ++ linesOf n chars xs) := by
  rw [linesOf, List.flatMap_cons, List.append_assoc, linesOf]

theorem itemsChars_eq (n : Nat) (vs : List Json) :
    itemsChars n vs = linesOf n (itemChars n) vs := by
  induction vs with
  | nil => rfl
  | cons v vs ih =>
    rw [itemsChars, linesOf_cons, ih, itemChars, itemGap, valueChars]
    split
    · simp [step]
    · simp [line]
      rfl

theorem entriesChars_eq (n : Nat) (es : List (String × Json)) :
    entriesChars n es = linesOf n (entryChars n) es := by
  induction es with
  | nil => rfl
  | cons e es ih =>
    rw [entriesChars, linesOf_cons, ih, entryChars, entryGap]
    split
    · next h => simp [blockChars_eq h]
    · next h => simp [line, valueChars, h]

theorem valueChars_array (n : Nat) (v : Json) (vs : List Json) :
    valueChars n (.array (v :: vs)) = itemChars n v ++ linesOf n (itemChars n) vs := by
  have h : valueChars n (.array (v :: vs)) = (blockChars n (.array (v :: vs))).drop n := rfl
  rw [h, blockChars, itemsChars_eq, linesOf_cons, List.drop_left' (length_padding n)]

theorem valueChars_object (n : Nat) (e : String × Json) (es : List (String × Json)) :
    valueChars n (.object (e :: es)) = entryChars n e ++ linesOf n (entryChars n) es := by
  have h : valueChars n (.object (e :: es)) = (blockChars n (.object (e :: es))).drop n := rfl
  rw [h, blockChars, entriesChars_eq, linesOf_cons, List.drop_left' (length_padding n)]

theorem chars_eq (v : Json) : chars v = valueChars 0 v := by
  rw [chars, valueChars]
  rfl

/-! ### Scalars -/

/-- The words for null and the truth values. -/
def words : List (List Char) :=
  [['n', 'u', 'l', 'l'], ['t', 'r', 'u', 'e'], ['f', 'a', 'l', 's', 'e']]

theorem written_words {cs : List Char} (h : cs ∈ words) :
    Written cs (.scalar (String.ofList cs) true) := by
  have hv : ∀ cs ∈ words, cs.all (· ∈ wordAlphabet) ∧ cs.head? ≠ some '.' := by decide
  have hl : Lead cs := by
    simp only [words, List.mem_cons, List.not_mem_nil, or_false] at h
    rcases h with rfl | rfl | rfl <;> exact .letter _ (by decide)
  exact written_word (List.all_iff_forall_prop.1 (hv cs h).1) hl (hv cs h).2

theorem Written.solid {w : List Char} {t : Token} (h : Written w t) (cs : List Char) :
    Solid (w ++ cs) := by
  cases h with
  | plain hw => exact hw.solid cs
  | quoted ds => exact solid_sign (c := '"') (by decide) _

/-- What is neither an array nor an object is written as a scalar. -/
inductive Atom : Json → Prop
  | null : Atom .null
  | bool (b : Bool) : Atom (.bool b)
  | number (x : Json.Number) : Atom (.number x)
  | string (s : String) : Atom (.string s)

theorem Atom.written (h : Atom v) : ∃ t, Written (inlineChars v) t ∧ tokensOf v = [t] ∧
    ∀ n, valueChars n v = inlineChars v ++ ['\n'] := by
  cases h with
  | null => exact ⟨_, written_words (by decide), rfl, fun _ => rfl⟩
  | bool b =>
    cases b with
    | true => exact ⟨_, written_words (by decide), rfl, fun _ => rfl⟩
    | false => exact ⟨_, written_words (by decide), rfl, fun _ => rfl⟩
  | number x => exact ⟨_, written_number x, rfl, fun _ => rfl⟩
  | string s => exact ⟨_, written_text s, rfl, fun _ => rfl⟩

theorem Atom.solid (h : Atom v) (n : Nat) (cs : List Char) : Solid (valueChars n v ++ cs) := by
  obtain ⟨t, hw, -, hv⟩ := h.written
  rw [hv, List.append_assoc]
  exact hw.solid _

theorem solid_item (n : Nat) (v : Json) (cs : List Char) : Solid (itemChars n v ++ cs) :=
  solid_sign (by decide) _

theorem solid_entry (n : Nat) (e : String × Json) (cs : List Char) :
    Solid (entryChars n e ++ cs) := by
  rw [entryChars, List.append_assoc]
  exact (written_text e.1).solid _

theorem solid_value (n : Nat) (v : Json) (cs : List Char) : Solid (valueChars n v ++ cs) := by
  match v with
  | .null => exact Atom.null.solid n cs
  | .bool b => exact (Atom.bool b).solid n cs
  | .number x => exact (Atom.number x).solid n cs
  | .string s => exact (Atom.string s).solid n cs
  | .array [] => exact solid_sign (by decide) _
  | .array (v :: vs) =>
    rw [valueChars_array, List.append_assoc]
    exact solid_item n v _
  | .object [] => exact solid_sign (by decide) _
  | .object (e :: es) =>
    rw [valueChars_object, List.append_assoc]
    exact solid_entry n e _

/-! ### Values -/

/-- Text without the two characters that YAML lacks but JSON has. -/
structure Clean (s : String) : Prop where
  noSwapped : '\uFFFE' ∉ s.toList
  noLast : '\uFFFF' ∉ s.toList

/-- Values that YAML can carry: their text is clean, and the colon of each key is near enough. -/
inductive Portable : Json → Prop
  | null : Portable .null
  | bool (b : Bool) : Portable (.bool b)
  | number (x : Json.Number) : Portable (.number x)
  | string {s : String} : Clean s → Portable (.string s)
  | array {items : List Json} : (∀ v ∈ items, Portable v) → Portable (.array items)
  | object {entries : List (String × Json)} :
    (∀ e ∈ entries, Clean e.1 ∧ (textChars e.1).length ≤ 1024) →
      (∀ e ∈ entries, Portable e.2) →
      Portable (.object entries)

attribute [simp] Portable.null Portable.bool Portable.number

@[simp] theorem portable_string : Portable (.string k) ↔ Clean k :=
  ⟨fun | .string h => h, .string⟩

@[simp] theorem portable_array : Portable (.array vs) ↔ ∀ v ∈ vs, Portable v :=
  ⟨fun | .array h => h, .array⟩

@[simp] theorem portable_object :
    Portable (.object es) ↔
      (∀ e ∈ es, Clean e.1 ∧ (textChars e.1).length ≤ 1024) ∧
        ∀ e ∈ es, Portable e.2 :=
  ⟨fun | .object hk h => ⟨hk, h⟩, fun h => .object h.1 h.2⟩

namespace Lexer

/-- The lexer gets over some text to the start of the next line. -/
def Takes (p : Progress) (m : Mark) (cs : List Char) (fresh : Bool) (q : Progress)
    (tail : List Char) : Prop :=
  ∃ m', m'.column = 0 ∧
    (before p m (cs ++ tail) none fresh).Reaches (before q m' tail none true)

/-- Wherever the value stands, the lexer gets over it. -/
def Taken (v : Json) : Prop :=
  ∀ (n : Nat) (p : Progress) (m : Mark) (fresh : Bool) (tail : List Char), p.indent < m.column →
    (isBlock v = true → m.column = n ∧ fresh = true) → Lands p.indent tail →
    Takes p m (valueChars n v) fresh (p.add (tokensOf v)) tail

variable {p q : Progress} {m : Mark} {tail w cs : List Char} {t : Token} {fresh : Bool}

theorem Taken.of_atom (h : Atom v) : Taken v := by
  intro n p m fresh tail hi _ hl
  obtain ⟨t, hw, ht, hv⟩ := h.written
  refine ⟨(m.along (inlineChars v).length).nextLine 1, rfl, ?_⟩
  rw [hv, ht, List.append_assoc]
  exact .line_text hw hl hi fresh

theorem Taken.of_brackets {o c : Char} {t t' : Token} (h : Brackets o c t t')
    (hv : ∀ n, valueChars n v = [o, c, '\n']) (ht : tokensOf v = [t, t']) : Taken v := by
  intro n p m fresh tail hi _ hl
  refine ⟨(m.along 2).nextLine 1, rfl, ?_⟩
  rw [hv, ht]
  exact .line_brackets h hi hl fresh

/-- At the start of a line that goes no deeper than what is around a block, the block ends. -/
theorem Reaches.leave_line {n : Nat} (hp : p.indent < n) (hm : m.column = 0)
    (hl : Lands p.indent tail) (t : Token) (ts : List Token) :
    (before ((p.enter n t).add ts) m tail none true).Reaches
      (before (p.add (t :: ts ++ [.blockEnd])) m tail none true) := by
  obtain @⟨k, cs, hs, hk⟩ := hl
  refine .trans (.over_padding hs k) (.trans (.leave hp hs ?_ t ts true) ?_)
  · rw [Mark.along_column]
    exact hk.imp_left (by omega)
  · exact .of_settles (.of_solid hs rfl) (.of_padding k hs rfl)

theorem enter_of_le {n : Nat} (h : (n : Int) ≤ p.indent) (t : Token) : p.enter n t = p := if_pos h

theorem enter_indent {n : Nat} (h : p.indent ≤ n) (t : Token) : (p.enter n t).indent = n := by
  rw [Progress.enter]
  split
  · omega
  · rfl

theorem reaches_itemGap (hm : m.column = n + 1) (v : Json) (cs : List Char) :
    ∃ m', (before p m (itemGap v ++ (valueChars (n + step) v ++ cs)) none true).Reaches
      (before p m' (valueChars (n + step) v ++ cs) none true) ∧ n < m'.column ∧
      (isBlock v = true → m'.column = n + step) := by
  rw [itemGap]
  refine ⟨_, .over_padding (solid_value _ v cs) _, ?_, ?_⟩
  · rw [Mark.along_column]
    omega
  · intro h
    rw [Mark.along_column, if_pos h, hm]
    rfl

/-- Behind a colon a value may stand on the line of its key, but no key may begin there. -/
theorem reaches_entryGap (hm : n < m.column) (v : Json) (cs : List Char) :
    ∃ m' fresh, (before p m (entryGap n v ++ (valueChars (n + step) v ++ cs)) none false).Reaches
      (before p m' (valueChars (n + step) v ++ cs) none fresh) ∧ n < m'.column ∧
      (isBlock v = true → m'.column = n + step ∧ fresh = true) := by
  have hs := solid_value (n + step) v cs
  rw [entryGap]
  split
  · refine ⟨_, true, .of_settles (.of_newline _ hs rfl) (.of_solid hs rfl), ?_, ?_⟩
    · rw [Mark.along_column]
      exact Nat.lt_of_lt_of_le (Nat.lt_add_of_pos_right (by decide)) (Nat.le_add_left _ _)
    · exact fun _ => ⟨by simp [Mark.nextLine], rfl⟩
  · next h =>
    refine ⟨_, false, .over_padding (n := 1) hs, ?_, fun hv => absurd hv h⟩
    rw [Mark.along_column]
    omega

theorem itemGap_append (v : Json) (cs : List Char) : ∃ ds, itemGap v ++ cs = ' ' :: ds := by
  rw [itemGap]
  split <;> exact ⟨_, rfl⟩

theorem entryGap_append (n : Nat) (v : Json) (cs : List Char) :
    ∃ c ds, entryGap n v ++ cs = c :: ds ∧ (c = ' ' ∨ c = '\n') := by
  rw [entryGap]
  split
  · exact ⟨'\n', _, rfl, .inr rfl⟩
  · exact ⟨' ', _, rfl, .inl rfl⟩

/-- Over the dash of an item to its value. -/
theorem reaches_item (hi : p.indent ≤ m.column) (v : Json) (cs : List Char) :
    ∃ m', (before p m (itemChars m.column v ++ cs) none true).Reaches
        (before ((p.enter m.column .blockSequence).add [.blockEntry]) m'
          (valueChars (m.column + step) v ++ cs) none true) ∧
      m.column < m'.column ∧ (isBlock v = true → m'.column = m.column + step) := by
  obtain ⟨ds, hds⟩ := itemGap_append v (valueChars (m.column + step) v ++ cs)
  obtain ⟨m', hgap, hn⟩ := reaches_itemGap (m := m.next) rfl v cs
  refine ⟨m', ?_, hn⟩
  rw [itemChars, List.cons_append, List.append_assoc]
  rw [hds] at hgap ⊢
  exact .trans (.dash hi ds) hgap

/-- Over the key of an entry to its value. -/
theorem reaches_entry {e : String × Json} (hk : (textChars e.1).length ≤ 1024)
    (hi : p.indent ≤ m.column) (cs : List Char) :
    ∃ m' fresh, (before p m (entryChars m.column e ++ cs) none true).Reaches
        (before ((p.enter m.column .blockMapping).add [.key, textToken e.1, .value]) m'
          (valueChars (m.column + step) e.2 ++ cs) none fresh) ∧
      m.column < m'.column ∧
      (isBlock e.2 = true → m'.column = m.column + step ∧ fresh = true) := by
  obtain ⟨c, ds, hds, hc⟩ :=
    entryGap_append m.column e.2 (valueChars (m.column + step) e.2 ++ cs)
  obtain ⟨m', fresh, hgap, hn⟩ := reaches_entryGap (n := m.column)
    (m := m.along ((textChars e.1).length + 1)) (by rw [Mark.along_column]; omega) e.2 cs
  refine ⟨m', fresh, ?_, hn⟩
  rw [entryChars, List.append_assoc, List.cons_append, List.append_assoc]
  rw [hds] at hgap ⊢
  exact .trans (.key (written_text e.1) hk hc hi ds) hgap

theorem takes_item (hv : Taken v) (hi : p.indent ≤ n) (hm : m.column = n) (hl : Lands n tail) :
    Takes p m (itemChars n v) true ((p.enter n .blockSequence).add (itemTokens v)) tail := by
  subst hm
  have hp : ((p.enter m.column .blockSequence).add [.blockEntry]).indent = m.column := by
    rw [Progress.add_indent, enter_indent hi]
  obtain ⟨m₁, hr₁, hn, hb⟩ := reaches_item hi v tail
  obtain ⟨m₂, hc, hr₂⟩ := hv (m.column + step) _ m₁ true tail (by rw [hp]; omega)
    (fun h => ⟨hb h, rfl⟩) (by rwa [hp])
  rw [Progress.add_add] at hr₂
  exact ⟨m₂, hc, hr₁.trans hr₂⟩

theorem takes_entry {e : String × Json} (hk : (textChars e.1).length ≤ 1024) (hv : Taken e.2)
    (hi : p.indent ≤ n) (hm : m.column = n) (hl : Lands n tail) :
    Takes p m (entryChars n e) true ((p.enter n .blockMapping).add (entryTokens e)) tail := by
  subst hm
  have hp : ((p.enter m.column .blockMapping).add [.key, textToken e.1, .value]).indent =
      m.column := by
    rw [Progress.add_indent, enter_indent hi]
  obtain ⟨m₁, fresh, hr₁, hn, hb⟩ := reaches_entry hk hi tail
  obtain ⟨m₂, hc, hr₂⟩ := hv (m.column + step) _ m₁ fresh tail (by rw [hp]; omega) hb
    (by rwa [hp])
  rw [Progress.add_add] at hr₂
  exact ⟨m₂, hc, hr₁.trans hr₂⟩

/-! ### Blocks -/

section Blocks

variable {α : Type} {chars : α → List Char} {tokens : α → List Token} {xs : List α}

/-- An entry of a block, the first of which opens it. -/
structure Enters (n : Nat) (opener : Token) (cs : List Char) (ts : List Token) : Prop where
  solid : ∀ rest, Solid (cs ++ rest)
  takes : ∀ {p : Progress} {m : Mark} {tail : List Char}, p.indent ≤ n → m.column = n →
    Lands n tail → Takes p m cs true ((p.enter n opener).add ts) tail

theorem lands_linesOf (h : ∀ x ∈ xs, Enters n t (chars x) (tokens x)) (hl : Lands n tail) :
    Lands n (linesOf n chars xs ++ tail) := by
  cases xs with
  | nil => exact hl
  | cons x xs =>
    rw [linesOf_cons, List.append_assoc, List.append_assoc]
    exact .line ((h x List.mem_cons_self).solid _) (.inl (Int.le_refl _))

theorem takes_lines (h : ∀ x ∈ xs, Enters n t (chars x) (tokens x)) (hp : p.indent = n)
    (hm : m.column = 0) (hl : Lands n tail) :
    Takes p m (linesOf n chars xs) true (p.add (xs.flatMap tokens)) tail := by
  induction xs generalizing p m with
  | nil => exact ⟨m, hm, .refl _⟩
  | cons x xs ih =>
    obtain ⟨hx, hxs⟩ := List.forall_mem_cons.1 h
    obtain ⟨m₁, h₁, hr₁⟩ := hx.takes (m := m.along n) (Int.le_of_eq hp) (by simp [hm])
      (lands_linesOf hxs hl)
    obtain ⟨m₂, h₂, hr₂⟩ := ih hxs (p := p.add (tokens x)) hp h₁
    rw [enter_of_le (Int.le_of_eq hp.symm)] at hr₁
    rw [Progress.add_add] at hr₂
    refine ⟨m₂, h₂, ?_⟩
    rw [linesOf_cons, List.append_assoc, List.append_assoc, List.flatMap_cons]
    exact .trans (.over_padding (hx.solid _) n) (.trans hr₁ hr₂)

theorem takes_block {x : α} (h : ∀ y ∈ x :: xs, Enters n t (chars y) (tokens y))
    (hp : p.indent < n) (hm : m.column = n) (hl : Lands p.indent tail) :
    Takes p m (chars x ++ linesOf n chars xs) true
      (p.add (t :: (x :: xs).flatMap tokens ++ [.blockEnd])) tail := by
  obtain ⟨hx, hxs⟩ := List.forall_mem_cons.1 h
  have hln : Lands n tail := hl.mono (Int.le_of_lt hp)
  obtain ⟨m₁, h₁, hr₁⟩ := hx.takes (Int.le_of_lt hp) hm (lands_linesOf hxs hln)
  obtain ⟨m₂, h₂, hr₂⟩ := takes_lines hxs (p := (p.enter n t).add (tokens x))
    (enter_indent (Int.le_of_lt hp) t) h₁ hln
  rw [Progress.add_add] at hr₂
  refine ⟨m₂, h₂, ?_⟩
  rw [List.append_assoc]
  exact .trans hr₁ (.trans hr₂ (.leave_line hp h₂ hl t _))

end Blocks

theorem enters_item (hv : Taken v) (n : Nat) :
    Enters n .blockSequence (itemChars n v) (itemTokens v) :=
  ⟨solid_item n v, takes_item hv⟩

theorem enters_entry {e : String × Json} (hk : (textChars e.1).length ≤ 1024) (hv : Taken e.2)
    (n : Nat) : Enters n .blockMapping (entryChars n e) (entryTokens e) :=
  ⟨solid_entry n e, takes_entry hk hv⟩

theorem Taken.array (h : ∀ v ∈ vs, Taken v) : Taken (.array vs) := by
  cases vs with
  | nil => exact .of_brackets .square (fun _ => rfl) rfl
  | cons v vs =>
    intro n p m fresh tail hi hb hl
    obtain ⟨hm, rfl⟩ := hb rfl
    rw [valueChars_array, tokensOf, itemsTokens_eq]
    exact takes_block (fun v hv => enters_item (h v hv) n) (hm ▸ hi) hm hl

theorem Taken.object (hk : ∀ e ∈ es, (textChars e.1).length ≤ 1024)
    (h : ∀ e ∈ es, Taken e.2) : Taken (.object es) := by
  cases es with
  | nil => exact .of_brackets .curly (fun _ => rfl) rfl
  | cons e es =>
    intro n p m fresh tail hi hb hl
    obtain ⟨hm, rfl⟩ := hb rfl
    rw [valueChars_object, tokensOf, entriesTokens_eq]
    exact takes_block (fun e he => enters_entry (hk e he) (h e he) n) (hm ▸ hi) hm hl

end Lexer

open Lexer

theorem Portable.taken (h : Portable v) : Taken v := by
  induction h with
  | null => exact .of_atom .null
  | bool b => exact .of_atom (.bool b)
  | number x => exact .of_atom (.number x)
  | @string s _ => exact .of_atom (.string s)
  | array _ ih => exact .array ih
  | object hk _ ih => exact .object (fun e he => (hk e he).2) ih

/-- The lexer reads the text of a value as its tokens. -/
theorem Portable.run_chars (h : Portable v) {steps : Nat}
    (hs : (glyphsFrom .start (chars v)).length < steps) :
    (start (glyphsFrom .start (chars v))).run steps = .ok (tokensOf v ++ [.streamEnd]) := by
  have hl : Lands Progress.none.indent [] := .line (n := 0) (fun _ h => nomatch h) (.inr rfl)
  obtain ⟨m, -, hr⟩ := h.taken 0 .none .start true [] (by decide) (fun _ => ⟨rfl, rfl⟩) hl
  have hy := hr _ (yields_end (k := none) rfl (fun _ h => nomatch h) m true)
  rw [List.append_nil, ← chars_eq] at hy
  simp only [Progress.add, Progress.none, List.append_nil, List.reverse_reverse] at hy
  exact hy steps (Nat.lt_of_le_of_lt (skipGaps_length_le _) hs)

end RemoteCall.Yaml
