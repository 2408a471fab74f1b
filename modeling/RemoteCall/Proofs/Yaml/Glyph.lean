import RemoteCall.Yaml.Glyph

/-! The glyphs of a line of text, and what the lexer sees in front of it. -/

namespace RemoteCall.Yaml

/-- A character that ends no line. -/
structure OnLine (c : Char) : Prop where
  noOtherBreak : isOtherBreak c = false
  noBreak : isBreak c = false

/-- The place behind so many characters of a line. -/
def Mark.along (m : Mark) (n : Nat) : Mark := ⟨m.index + n, m.line, m.column + n⟩

/-- The glyphs of text without an end of line. -/
def row (m : Mark) : List Char → List Glyph
  | [] => []
  | c :: cs => ⟨c, m⟩ :: row m.next cs

namespace Mark

variable (m : Mark) (n k : Nat)

@[simp] theorem along_column : (m.along n).column = m.column + n := rfl

@[simp] theorem along_line : (m.along n).line = m.line := rfl

@[simp] theorem along_index : (m.along n).index = m.index + n := rfl

@[simp] theorem next_along : m.next.along n = m.along (n + 1) := by
  simp only [along, next, Nat.add_assoc, Nat.add_comm 1]

@[simp] theorem along_next : (m.along n).next = m.along (n + 1) := rfl

@[simp] theorem along_along : (m.along n).along k = m.along (n + k) := by
  simp only [along, Nat.add_assoc]

end Mark

variable {m : Mark} {c : Char} {cs rest : List Char}

@[simp] theorem here_glyphsFrom (m : Mark) (cs : List Char) : here (glyphsFrom m cs) = m := by
  fun_cases glyphsFrom m cs <;> rfl

theorem glyphsFrom_ne_nil (m : Mark) (cs : List Char) : glyphsFrom m cs ≠ [] := by
  fun_cases glyphsFrom m cs <;> simp

theorem glyphsFrom_cons (h : OnLine c) (m : Mark) (cs : List Char) :
    glyphsFrom m (c :: cs) = ⟨c, m⟩ :: glyphsFrom m.next cs := by
  have hr : c ≠ '\r' := by
    rintro rfl
    exact absurd h.noOtherBreak (by decide)
  rw [glyphsFrom, h.noOtherBreak, h.noBreak]
  · rfl
  · exact fun _ he => absurd he hr

theorem glyphsFrom_newline (m : Mark) (cs : List Char) :
    glyphsFrom m ('\n' :: cs) = ⟨'\n', m⟩ :: glyphsFrom (m.nextLine 1) cs :=
  rfl

theorem glyphsFrom_append (h : ∀ c ∈ cs, OnLine c) (m : Mark) (rest : List Char) :
    glyphsFrom m (cs ++ rest) = row m cs ++ glyphsFrom (m.along cs.length) rest := by
  induction cs generalizing m with
  | nil => rfl
  | cons c cs ih =>
    obtain ⟨hc, hcs⟩ := List.forall_mem_cons.1 h
    rw [List.cons_append, glyphsFrom_cons hc, ih hcs, row, List.length_cons, Mark.next_along]
    rfl

theorem row_append (m : Mark) (cs rest : List Char) :
    row m (cs ++ rest) = row m cs ++ row (m.along cs.length) rest := by
  induction cs generalizing m with
  | nil => rfl
  | cons c cs ih => rw [List.cons_append, row, row, ih, List.length_cons, Mark.next_along]; rfl

@[simp] theorem map_char_row (m : Mark) (cs : List Char) : (row m cs).map Glyph.char = cs := by
  induction cs generalizing m with
  | nil => rfl
  | cons c cs ih => rw [row, List.map_cons, ih]

@[simp] theorem length_row (m : Mark) (cs : List Char) : (row m cs).length = cs.length := by
  rw [← List.length_map (f := Glyph.char), map_char_row]

@[simp] theorem row_eq_nil_iff : row m cs = [] ↔ cs = [] := by
  rw [← List.length_eq_zero_iff, length_row, List.length_eq_zero_iff]

theorem forall_mem_row {p : Char → Prop} (h : ∀ c ∈ cs, p c) :
    ∀ g ∈ row m cs, p g.char := by
  intro g hg
  apply h
  rw [← map_char_row m cs]
  exact List.mem_map_of_mem hg

/-! ### The characters in front -/

@[simp] theorem peek_cons_zero (g : Glyph) (gs : List Glyph) : peek (g :: gs) 0 = g.char := rfl

@[simp] theorem peek_cons_succ (g : Glyph) (gs : List Glyph) (n : Nat) :
    peek (g :: gs) (n + 1) = peek gs n :=
  rfl

theorem peek_glyphsFrom_cons (h : OnLine c) (m : Mark) (cs : List Char) :
    peek (glyphsFrom m (c :: cs)) 0 = c := by
  rw [glyphsFrom_cons h, peek_cons_zero]

end RemoteCall.Yaml
