import RemoteCall.Proofs.Json.RoundTrip
import RemoteCall.Proofs.Yaml.Layout
import RemoteCall.Render

/-!
How documents end. Whatever is printed ends with one line end behind a character that is no blank,
so that only the line end is lost where a value is shown. Main statement: what is shown is the
document without its last line end, and both ways to a document lead to the same.
-/

namespace RemoteCall

namespace Yaml

variable {cs : List Char} {n : Nat} {v : Json}

/-! ### Ends of lines -/

/-- Text that ends with a line end behind a character that is no blank. -/
def EndsLine (cs : List Char) : Prop := ∃ ds c, cs = ds ++ [c, '\n'] ∧ Text.isBlank c = false

theorem EndsLine.append (h : EndsLine cs) (ds : List Char) : EndsLine (ds ++ cs) := by
  obtain ⟨es, c, rfl, hc⟩ := h
  exact ⟨ds ++ es, c, (List.append_assoc _ _ _).symm, hc⟩

theorem endsLine_of_last (hn : cs ≠ []) (h : ∀ c ∈ cs.getLast?, Text.isBlank c = false) :
    EndsLine (cs ++ ['\n']) := by
  obtain ⟨ds, c, rfl⟩ := cs.eq_nil_or_concat.resolve_left hn
  rw [List.concat_eq_append] at h ⊢
  exact ⟨ds, c, (List.append_cons ds c ['\n']).symm, h c List.getLast?_concat⟩

theorem trimEnd_line {c : Char} (h : Text.isBlank c = false) (ds : List Char) :
    Text.trimEnd (ds ++ [c, '\n']) = ds ++ [c] := by
  have hn : Text.trimEnd ['\n'] = [] := by decide
  rw [Text.trimEnd, Text.dropEndWhile_append_cons h]
  exact congrArg (ds ++ c :: ·) hn

/-! ### Values on one line -/

theorem endsLine_number (x : Json.Number) : EndsLine (x.chars ++ ['\n']) := by
  have hv : ∀ c ∈ wordAlphabet, Text.isBlank c = false := List.all_iff_forall_prop.1 (by decide)
  obtain ⟨c, cs, hx, -⟩ := Json.number_eq_cons x
  refine endsLine_of_last (by simp [hx]) fun c hc => ?_
  exact hv c (mem_wordAlphabet (Json.isFractionChar_of_mem_chars (List.mem_of_getLast? hc)))

/-- A blank at the end of a text stands inside of quotes. -/
theorem endsLine_text (s : String) : EndsLine (textChars s ++ ['\n']) := by
  rw [textChars]
  split
  · next h =>
    have hs := safe_of_isPlainSafe h
    exact endsLine_of_last hs.ne_nil (Text.not_last_of_dropBothWhile_eq_self hs.trimmed)
  · exact ⟨_, '"', List.append_assoc _ _ _, by decide⟩

theorem Atom.endsLine (h : Atom v) (n : Nat) : EndsLine (valueChars n v) := by
  obtain ⟨-, -, -, hv⟩ := h.written
  rw [hv]
  cases h with
  | null => exact ⟨['n', 'u', 'l'], 'l', rfl, by decide⟩
  | bool b =>
    cases b with
    | true => exact ⟨['t', 'r', 'u'], 'e', rfl, by decide⟩
    | false => exact ⟨['f', 'a', 'l', 's'], 'e', rfl, by decide⟩
  | number x => exact endsLine_number x
  | string s => exact endsLine_text s

/-! ### Values -/

theorem endsLine_block {α : Type} {chars : α → List Char} {x : α} {xs : List α}
    (h : ∀ y ∈ x :: xs, EndsLine (chars y)) : EndsLine (chars x ++ linesOf n chars xs) := by
  induction xs generalizing x with
  | nil => simpa [linesOf] using h x List.mem_cons_self
  | cons y ys ih =>
    rw [linesOf_cons]
    exact ((ih fun z hz => h z (List.mem_cons_of_mem x hz)).append _).append _

theorem endsLine_value (v : Json) : ∀ n, EndsLine (valueChars n v) := by
  induction v using Json.induction with
  | null => exact Atom.null.endsLine
  | bool b => exact (Atom.bool b).endsLine
  | number x => exact (Atom.number x).endsLine
  | string s => exact (Atom.string s).endsLine
  | array items ih =>
    intro n
    cases items with
    | nil => exact ⟨['['], ']', rfl, by decide⟩
    | cons v vs =>
      rw [valueChars_array]
      exact endsLine_block fun w hw => ((ih w hw (n + step)).append _).append ['-']
  | object entries ih =>
    intro n
    cases entries with
    | nil => exact ⟨['\x7b'], '\x7d', rfl, by decide⟩
    | cons e es =>
      rw [valueChars_object]
      exact endsLine_block fun d hd =>
        (((ih d hd (n + step)).append _).append [':']).append (textChars d.1)

theorem endsLine_chars (v : Json) : EndsLine (chars v) := chars_eq v ▸ endsLine_value v 0

theorem write_eq (hw : v.Whole) (ho : v.Ordered) (hd : v.depth ≤ 127) :
    write v = .ok (text v) := by
  rw [write, ofJsonText, Json.parse_chars hw ho hd]
  rfl

end Yaml

/-! ### What is shown -/

variable {v : Json}

/-- Of a document nothing but its last line end is lost. -/
theorem exists_render_yaml (v : Json) : ∃ cs c, (Mode.yaml.render v).toList = cs ++ [c] ∧
    Text.isBlank c = false ∧ Mode.yaml.render v ++ "\n" = Yaml.text v := by
  obtain ⟨cs, c, he, hc⟩ := Yaml.endsLine_chars v
  have hr : Mode.yaml.render v = String.ofList (Text.trimEnd (Yaml.chars v)) := rfl
  rw [he, Yaml.trimEnd_line hc] at hr
  refine ⟨cs, c, by rw [hr, String.toList_ofList], hc, String.toList_inj.1 ?_⟩
  simp [hr, Yaml.text, he]

theorem render_human_eq (h : ∀ s, v ≠ .string s) :
    Mode.human.render v = Mode.yaml.render v := by
  cases v with
  | string s => exact absurd rfl (h s)
  | _ => rfl

/-- The YAML text of a value is the same by way of its JSON text. What is shown of the value is that
text without its last line end, in front of which there is no blank, and people are shown the same
unless the value is a text. -/
theorem render_lacks_line_end (hw : v.Whole) (ho : v.Ordered) (hd : v.depth ≤ 127) :
    Yaml.write v = .ok (Mode.yaml.render v ++ "\n") ∧
      Mode.yaml.render v ++ "\n" = Yaml.text v ∧
      (∃ cs c, (Mode.yaml.render v).toList = cs ++ [c] ∧ Text.isBlank c = false) ∧
      ((∀ s, v ≠ .string s) → Mode.human.render v = Mode.yaml.render v) := by
  obtain ⟨cs, c, hr, hc, ht⟩ := exists_render_yaml v
  exact ⟨by rw [ht, Yaml.write_eq hw ho hd], ht, ⟨cs, c, hr, hc⟩, render_human_eq⟩

/-- Texts with blanks at their ends, one of them where the document ends. -/
def trailing : Json :=
  .object [(" a", .array [.string "\n", .object []]), ("b\u3000", .array [.string "c\u2003"])]

theorem ordered_trailing : trailing.Ordered := by
  have ho (v w : Json) : Entries.Ordered [(" a", v), ("b\u3000", w)] :=
    List.pairwise_pair.2 (by decide : " a" < "b\u3000")
  have he : Entries.Ordered ([] : List (String × Json)) := .nil
  simp [trailing, ho, he]

theorem render_lacks_line_end_trailing :
    trailing.Whole ∧ trailing.Ordered ∧ trailing.depth ≤ 127 ∧
      Yaml.write trailing = .ok (Mode.yaml.render trailing ++ "\n") ∧
      Mode.human.render trailing = Mode.yaml.render trailing ∧
      Mode.yaml.render trailing =
        "\" a\":\n    - \"\\n\"\n    - \x7b\x7d\n\"b\u3000\":\n    - \"c\u2003\"" := by
  have hw : trailing.Whole := by simp [trailing]
  have hd : trailing.depth ≤ 127 := by decide
  obtain ⟨he, -, -, hh⟩ := render_lacks_line_end hw ordered_trailing hd
  exact ⟨hw, ordered_trailing, hd, he, hh fun s h => (by cases h), by decide⟩

end RemoteCall
