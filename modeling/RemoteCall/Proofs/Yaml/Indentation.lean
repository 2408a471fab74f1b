import RemoteCall.Proofs.Render
import RemoteCall.Proofs.Text.Position
import RemoteCall.Proofs.Text.Utf8

/-!
The lines of a block. However deep it is nested, a block has the same lines at every indentation,
and nothing in them ends a line. Main statement: at a greater indentation each line of a block
stands behind as many more spaces, and where a block gives up the spaces in front of its first line,
these and no more are cut off.
-/

namespace RemoteCall.Yaml

open Text (slice slice_from_start slice_to_end)
open Text.Utf8 (encode encode_append encode_cons)

variable {l : List Char} {ls : List (List Char)} {f : Nat → List Char} {v : Json}

/-! ### Scalars -/

/-- The characters that end a line, in one reader or another. -/
def lineBreaks : List Char := ['\n', '\x0b', '\x0c', '\r', '\u0085', '\u2028', '\u2029']

/-- Text in which every character stands for itself. -/
def Raw (cs : List Char) : Prop := ∀ c ∈ cs, needsEscape c = false

instance (cs : List Char) : Decidable (Raw cs) :=
  decidable_of_iff (cs.all (fun c => !needsEscape c) = true) (by simp [Raw])

theorem Raw.append {cs ds : List Char} (h : Raw cs) (hd : Raw ds) : Raw (cs ++ ds) :=
  List.forall_mem_append.2 ⟨h, hd⟩

theorem Raw.not_mem_lineBreaks {cs : List Char} (h : Raw cs) : ∀ c ∈ lineBreaks, c ∉ cs := by
  have hv : ∀ c ∈ lineBreaks, needsEscape c = true := List.all_iff_forall_prop.1 (by decide)
  intro c hc hm
  exact Bool.noConfusion ((hv c hc).symm.trans (h c hm))

theorem Raw.not_mem_newline {cs : List Char} (h : Raw cs) : '\n' ∉ cs :=
  h.not_mem_lineBreaks '\n' (by decide)

theorem raw_padding (n : Nat) : Raw (padding n) := by
  intro c hc
  rw [eq_of_mem_padding hc]
  decide

theorem raw_text (s : String) : Raw (textChars s) := by
  rw [textChars]
  split
  · next h => exact fun c hc => ((safe_of_isPlainSafe h).raw c hc).1
  · have hv : Raw ('"' :: escapeAlphabet) := by decide
    have hq : Raw ('"' :: s.toList.flatMap quotedChar) := by
      refine List.forall_mem_cons.2 ⟨by decide, fun c hc => ?_⟩
      obtain ⟨d, -, hc⟩ := List.mem_flatMap.1 hc
      rcases mem_quotedChar hc with hc | ⟨rfl, hr⟩
      · exact hv c (List.mem_cons_of_mem _ hc)
      · exact hr
    exact hq.append (by decide)

/-- What a value is written as on one line. -/
theorem raw_inline (v : Json) : Raw (inlineChars v) := by
  have hv : Raw wordAlphabet := by decide
  cases v with
  | null => exact (by decide : Raw ['n', 'u', 'l', 'l'])
  | bool b =>
    cases b with
    | true => exact (by decide : Raw ['t', 'r', 'u', 'e'])
    | false => exact (by decide : Raw ['f', 'a', 'l', 's', 'e'])
  | number x => exact fun c hc => hv c (mem_wordAlphabet (Json.isFractionChar_of_mem_chars hc))
  | string s => exact raw_text s
  | array items => exact (by decide : Raw ['[', ']'])
  | object entries => exact (by decide : Raw ['\x7b', '\x7d'])

/-! ### Lines -/

/-- A line on which something is to be seen, and in which nothing ends a line. -/
structure IsLine (l : List Char) : Prop where
  raw : Raw l
  visible : ∃ c ∈ l, Text.isBlank c = false

/-- Lines behind a number of spaces each, with their ends. -/
def indented (n : Nat) (ls : List (List Char)) : List Char :=
  ls.flatMap fun l => padding n ++ (l ++ ['\n'])

/-- The lines of a text that ends with the end of a line. -/
def textLines (cs : List Char) : List (List Char) := (Text.fields '\n' cs).dropLast

theorem IsLine.append (h : IsLine l) {cs : List Char} (hc : Raw cs) : IsLine (cs ++ l) := by
  obtain ⟨c, hm, hv⟩ := h.visible
  exact ⟨hc.append h.raw, c, List.mem_append_right cs hm, hv⟩

theorem padding_add (n k : Nat) : padding (n + k) = padding n ++ padding k :=
  List.replicate_add n k ' '

theorem indented_cons (n : Nat) (l : List Char) (ls : List (List Char)) :
    indented n (l :: ls) = padding n ++ (l ++ '\n' :: indented n ls) := by
  rw [indented, List.flatMap_cons, List.append_assoc, List.append_assoc]
  rfl

theorem indented_append (n : Nat) (ls ms : List (List Char)) :
    indented n (ls ++ ms) = indented n ls ++ indented n ms :=
  List.flatMap_append

/-- Lines that are indented twice. -/
theorem indented_add (n k : Nat) (ls : List (List Char)) :
    indented (n + k) ls = indented n (ls.map (padding k ++ ·)) := by
  induction ls with
  | nil => rfl
  | cons l ls ih =>
    rw [List.map_cons, indented_cons, indented_cons, ih, padding_add]
    simp only [List.append_assoc]

theorem fields_indented (h : ∀ l ∈ ls, Raw l) (n : Nat) :
    Text.fields '\n' (indented n ls) = ls.map (padding n ++ ·) ++ [[]] := by
  induction ls with
  | nil => rfl
  | cons l ls ih =>
    obtain ⟨hl, hls⟩ := List.forall_mem_cons.1 h
    have hn := ((raw_padding n).append hl).not_mem_newline
    rw [indented_cons, ← List.append_assoc, Text.fields_append_cons hn, ih hls]
    rfl

theorem textLines_indented (h : ∀ l ∈ ls, Raw l) (n : Nat) :
    textLines (indented n ls) = ls.map (padding n ++ ·) := by
  rw [textLines, fields_indented h, List.dropLast_concat]

/-! ### Values -/

/-- What stands at a column is the same lines at every column: one that begins there, and others
that are indented as deep. -/
def Shifts (f : Nat → List Char) : Prop :=
  ∃ l ls, (∀ m ∈ l :: ls, IsLine m) ∧ ∀ n, f n = l ++ '\n' :: indented n ls

theorem shifts_line (h : IsLine l) : Shifts fun _ => l ++ ['\n'] :=
  ⟨l, [], List.forall_mem_singleton.2 h, fun _ => rfl⟩

/-- Something in front of the first line. -/
theorem Shifts.append (h : Shifts f) {cs : List Char} (hc : Raw cs) :
    Shifts fun n => cs ++ f n := by
  obtain ⟨l, ls, hl, hf⟩ := h
  obtain ⟨hl, hls⟩ := List.forall_mem_cons.1 hl
  refine ⟨cs ++ l, ls, List.forall_mem_cons.2 ⟨hl.append hc, hls⟩, fun n => ?_⟩
  simp only [hf, List.append_assoc]

theorem Shifts.deeper (h : Shifts f) (k : Nat) : Shifts fun n => f (n + k) := by
  obtain ⟨l, ls, hl, hf⟩ := h
  obtain ⟨hl, hls⟩ := List.forall_mem_cons.1 hl
  refine ⟨l, ls.map (padding k ++ ·), List.forall_mem_cons.2 ⟨hl, ?_⟩, fun n => ?_⟩
  · exact List.forall_mem_map.2 fun m hm => (hls m hm).append (raw_padding k)
  · simp only [hf, indented_add]

/-- A line above the first one. -/
theorem Shifts.below (h : Shifts f) (hl : IsLine l) :
    Shifts fun n => l ++ '\n' :: (padding n ++ f n) := by
  obtain ⟨m, ms, hm, hf⟩ := h
  refine ⟨l, m :: ms, List.forall_mem_cons.2 ⟨hl, hm⟩, fun n => ?_⟩
  simp only [hf, indented_cons]

theorem shifts_block {α : Type} {chars : Nat → α → List Char} {x : α} {xs : List α}
    (h : ∀ y ∈ x :: xs, Shifts fun n => chars n y) :
    Shifts fun n => chars n x ++ linesOf n (chars n) xs := by
  induction xs generalizing x with
  | nil => simpa [linesOf] using h x List.mem_cons_self
  | cons y ys ih =>
    obtain ⟨hx, hys⟩ := List.forall_mem_cons.1 h
    obtain ⟨l, ls, hl, hf⟩ := hx
    obtain ⟨m, ms, hm, hg⟩ := ih hys
    obtain ⟨hl, hls⟩ := List.forall_mem_cons.1 hl
    -- the first line of what follows is indented like the lines above it
    refine
      ⟨l, ls ++ m :: ms, List.forall_mem_cons.2 ⟨hl, List.forall_mem_append.2 ⟨hls, hm⟩⟩,
      fun n => ?_⟩
    simp only [linesOf_cons, hf, hg, indented_append, indented_cons, List.append_assoc,
      List.cons_append]

theorem raw_itemGap (v : Json) : Raw ('-' :: itemGap v) :=
  List.forall_mem_cons.2 ⟨by decide, raw_padding _⟩

theorem shifts_item (h : Shifts fun n => valueChars n v) : Shifts fun n => itemChars n v :=
  (h.deeper step).append (raw_itemGap v)

theorem isLine_key (s : String) : IsLine (textChars s ++ [':']) :=
  ⟨(raw_text s).append (by decide), ':', by simp, by decide⟩

/-- A block stands below its key, and anything else beside it. -/
theorem shifts_entry {e : String × Json} (h : Shifts fun n => valueChars n e.2) :
    Shifts fun n => entryChars n e := by
  cases hb : isBlock e.2 with
  | true =>
    have hs := ((h.deeper step).append (raw_padding step)).below (isLine_key e.1)
    simpa [entryChars, entryGap, hb, padding_add] using hs
  | false =>
    have hr : Raw (textChars e.1 ++ [':', ' ']) := (raw_text e.1).append (by decide)
    simpa [entryChars, entryGap, hb] using (h.deeper step).append hr

theorem shifts_inline (h : isBlock v = false) : Shifts fun n => valueChars n v := by
  have hv (n : Nat) : valueChars n v = inlineChars v ++ ['\n'] := by simp [valueChars, h]
  -- what is visible is what stands in front of the end of the line
  obtain ⟨cs, c, he, hc⟩ := endsLine_value v 0
  rw [hv, List.append_cons cs c ['\n'], List.append_cancel_right_eq] at he
  simp only [hv]
  exact shifts_line ⟨raw_inline v, c, by simp [he], hc⟩

theorem shifts_value (v : Json) : Shifts fun n => valueChars n v := by
  induction v using Json.induction with
  | null => exact shifts_inline rfl
  | bool b => exact shifts_inline rfl
  | number x => exact shifts_inline rfl
  | string s => exact shifts_inline rfl
  | array items ih =>
    cases items with
    | nil => exact shifts_inline rfl
    | cons v vs =>
      simp only [valueChars_array]
      exact shifts_block fun w hw => shifts_item (ih w hw)
  | object entries ih =>
    cases entries with
    | nil => exact shifts_inline rfl
    | cons e es =>
      simp only [valueChars_object]
      exact shifts_block fun d hd => shifts_entry (ih d hd)

/-! ### Blocks -/

/-- A block is the same lines at every indentation. -/
theorem exists_lines (h : isBlock v = true) :
    ∃ ls, (∀ l ∈ ls, IsLine l) ∧ ∀ n, blockChars n v = indented n ls := by
  obtain ⟨l, ls, hl, hv⟩ := shifts_value v
  refine ⟨l :: ls, hl, fun n => ?_⟩
  rw [blockChars_eq h, indented_cons]
  exact congrArg (padding n ++ ·) (hv n)

/-- Behind its indentation a block begins with something else than a space. -/
theorem exists_blockChars_eq (h : isBlock v = true) (n : Nat) :
    ∃ c cs, blockChars n v = padding n ++ c :: cs ∧ c ≠ ' ' := by
  obtain ⟨l, ls, hl, hv⟩ := shifts_value v
  obtain ⟨c, cs, hc⟩ := List.exists_cons_of_ne_nil (l := valueChars n v) (by simp [hv n])
  refine ⟨c, cs, by rw [blockChars_eq h, hc], ?_⟩
  rintro rfl
  have hs := solid_value n v []
  rw [hc] at hs
  exact absurd (hs ' ' rfl).2.1 (by decide)

/-! ### Cutting by bytes -/

/-- The bytes of a text are cut behind `n` spaces, and where the rest begins there is no space. -/
structure GivesUp (n : Nat) (cs : List Char) : Prop where
  front : slice (encode cs) 0 n = .ok (List.replicate n 0x20)
  rest : slice (encode cs) n (encode cs).length = .ok (encode (cs.drop n))
  next : ∃ c ∈ (cs.drop n).head?, c ≠ ' '

theorem encode_padding (n : Nat) : encode (padding n) = List.replicate n 0x20 := by
  induction n with
  | zero => rfl
  | succ n ih =>
    have hp : padding (n + 1) = ' ' :: padding n := rfl
    rw [hp, encode_cons, ih]
    rfl

theorem givesUp_padding {c : Char} (hc : c ≠ ' ') (n : Nat) (cs : List Char) :
    GivesUp n (padding n ++ c :: cs) := by
  have he : encode (padding n ++ c :: cs) = List.replicate n 0x20 ++ encode (c :: cs) := by
    rw [encode_append, encode_padding]
  have hn : n ≤ (encode (padding n ++ c :: cs)).length := by simp [he]
  have hd : (padding n ++ c :: cs).drop n = c :: cs := List.drop_left' (length_padding n)
  refine ⟨?_, ?_, c, by simp [hd], hc⟩
  · rw [slice_from_start hn, he, List.take_left' List.length_replicate]
  · rw [slice_to_end hn, hd, he, List.drop_left' List.length_replicate]

theorem givesUp_block (h : isBlock v = true) (n : Nat) : GivesUp n (blockChars n v) := by
  obtain ⟨c, cs, hb, hc⟩ := exists_blockChars_eq h n
  exact hb ▸ givesUp_padding hc n cs

/-- A block that is indented has the lines of the block that is not, behind as many spaces each. No
line is blank, each has its end, and neither a key nor anything else on a line ends one. Inside a
list, a block gives up its indentation and nothing else. -/
theorem blockChars_shift_uniformly (h : isBlock v = true) (n : Nat) :
    blockChars n v = indented n (textLines (blockChars 0 v)) ∧
      blockChars n v = indented 0 (textLines (blockChars n v)) ∧
      (∀ l ∈ textLines (blockChars n v), ∃ c ∈ l, Text.isBlank c = false) ∧
      (∀ w, ∀ c ∈ lineBreaks, c ∉ inlineChars w) ∧
      (∀ k, ∀ c ∈ lineBreaks, c ∉ textChars k) ∧
      ∀ w, isBlock w = true → GivesUp (n + step) (blockChars (n + step) w) := by
  obtain ⟨ls, hl, hv⟩ := exists_lines h
  have hr : ∀ l ∈ ls, Raw l := fun l hm => (hl l hm).raw
  have ht (k : Nat) : textLines (blockChars k v) = ls.map (padding k ++ ·) := by
    rw [hv, textLines_indented hr]
  refine ⟨?_, ?_, ?_, fun w => (raw_inline w).not_mem_lineBreaks,
    fun k => (raw_text k).not_mem_lineBreaks, fun w hw => givesUp_block hw (n + step)⟩
  · rw [ht, ← indented_add, hv, Nat.add_zero]
  · rw [ht, ← indented_add, hv, Nat.zero_add]
  · rw [ht]
    exact List.forall_mem_map.2 fun l hm => ((hl l hm).append (raw_padding n)).visible

/-- Lists in lists below a key that is written in quotes, with an end of line in a text. -/
def nested : Json :=
  .object [("a\nb", .array [.array [.array [.null, .string "c\u2028"], .object []],
    .object [("on", .array [.bool true])]])]

theorem blockChars_shift_uniformly_nested :
    isBlock nested = true ∧ blockChars 2 nested = indented 2 (textLines (blockChars 0 nested)) ∧
      String.ofList (blockChars 2 nested) =
        "  \"a\\nb\":\n      -   -   - null\n              - \"c\\u2028\"\n" ++
        "          - \x7b\x7d\n      -   \"on\":\n              - true\n" := by
  have hb : isBlock nested = true := rfl
  exact ⟨hb, (blockChars_shift_uniformly hb 2).1, by decide⟩

end RemoteCall.Yaml
