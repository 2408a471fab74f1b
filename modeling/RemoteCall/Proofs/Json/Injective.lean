import RemoteCall.Proofs.Json.RoundTrip

/-!
The text of a value tells the value, fractions included, and where the text ends. Main statement:
two values with the same text are the same.
-/

namespace RemoteCall.Json

/-- A text in front of what may follow a value tells what it is the text of, and where it ends. -/
def Told {α : Type} (f : α → List Char) (x : α) : Prop :=
  ∀ y rest rest', Terminates rest → Terminates rest' → f x ++ rest = f y ++ rest' →
    x = y ∧ rest = rest'

theorem commas_map_cons {α : Type} (f : α → List Char) (x y : α) (ys : List α)
    (cs : List Char) :
    commas ((x :: y :: ys).map f) ++ cs = f x ++ ',' :: (commas ((y :: ys).map f) ++ cs) :=
  List.append_assoc (f x) (',' :: commas ((y :: ys).map f)) cs

/-- Pieces that tell what they are the text of tell it in a list, too. -/
theorem told_commas {α : Type} {f : α → List Char} {close : Char}
    (hc : close = ']' ∨ close = '\x7d')
    (hf : ∀ x cs cs', f x ++ cs ≠ close :: cs') {xs : List α} (h : ∀ x ∈ xs, Told f x)
    {ys : List α} {rest rest' : List Char}
    (he : commas (xs.map f) ++ close :: rest = commas (ys.map f) ++ close :: rest') :
    xs = ys ∧ rest = rest' := by
  have hclose (cs : List Char) : Terminates (close :: cs) := .cons (.inr hc) cs
  have hcomma (cs : List Char) : Terminates (',' :: cs) := .cons (.inl rfl) cs
  have hne : ',' ≠ close := by rcases hc with rfl | rfl <;> decide
  -- A list that is not empty begins with a piece, and so not with the closing bracket.
  have hcons (x : α) (xs : List α) (cs cs' : List Char) :
      commas ((x :: xs).map f) ++ cs ≠ close :: cs' := by
    cases xs with
    | nil => exact hf x cs cs'
    | cons x' xs =>
      rw [commas_map_cons]
      exact hf x _ cs'
  induction xs generalizing ys with
  | nil =>
    cases ys with
    | nil => exact ⟨rfl, (List.cons.inj he).2⟩
    | cons y ys => exact absurd he.symm (hcons y ys _ _)
  | cons x xs ih =>
    obtain ⟨hx, hxs⟩ := List.forall_mem_cons.1 h
    cases ys with
    | nil => exact absurd he (hcons x xs _ _)
    | cons y ys =>
      cases xs with
      | nil =>
        cases ys with
        | nil =>
          obtain ⟨rfl, hr⟩ := hx y _ _ (hclose _) (hclose _) he
          exact ⟨rfl, (List.cons.inj hr).2⟩
        | cons y' ys =>
          rw [commas_map_cons] at he
          obtain ⟨-, hr⟩ := hx y _ _ (hclose _) (hcomma _) he
          exact absurd (List.cons.inj hr).1.symm hne
      | cons x' xs =>
        cases ys with
        | nil =>
          rw [commas_map_cons] at he
          obtain ⟨-, hr⟩ := hx y _ _ (hcomma _) (hclose _) he
          exact absurd (List.cons.inj hr).1 hne
        | cons y' ys =>
          rw [commas_map_cons, commas_map_cons] at he
          obtain ⟨rfl, hr⟩ := hx y _ _ (hcomma _) (hcomma _) he
          obtain ⟨hs, hr⟩ := ih hxs (List.cons.inj hr).2
          exact ⟨congrArg (x :: ·) hs, hr⟩

/-! ### Strings and entries -/

theorem stringChars_append_inj {s t : String} {rest rest' : List Char}
    (he : stringChars s ++ rest = stringChars t ++ rest') : s = t ∧ rest = rest' := by
  simp only [stringChars, List.cons_append, List.append_assoc, List.nil_append] at he
  have hr := readUnits_text s.toList rest
  rw [(List.cons.inj he).2, readUnits_text] at hr
  obtain ⟨hu, hr⟩ := Prod.mk.inj hr
  refine ⟨?_, (Except.ok.inj hr).symm⟩
  have ht := congrArg Units.text? hu
  rw [text?_unitsOf, text?_unitsOf] at ht
  exact String.toList_inj.1 (Option.some.inj ht).symm

def entryChars (e : String × Json) : List Char := stringChars e.1 ++ ':' :: e.2.chars

theorem itemsChars_eq_map (items : List Json) : itemsChars items = items.map chars := by
  induction items with
  | nil => rfl
  | cons v vs ih => rw [itemsChars, ih, List.map_cons]

theorem entriesChars_eq_map (entries : List (String × Json)) :
    entriesChars entries = entries.map entryChars := by
  induction entries with
  | nil => rfl
  | cons e es ih =>
    rw [entriesChars, ih, List.map_cons]
    rfl

theorem told_entry {e : String × Json} (h : Told chars e.2) : Told entryChars e := by
  intro f rest rest' ht ht' he
  rw [entryChars, entryChars, List.append_assoc, List.append_assoc] at he
  obtain ⟨hk, he⟩ := stringChars_append_inj he
  obtain ⟨hv, hr⟩ := h f.2 rest rest' ht ht' (List.cons.inj he).2
  exact ⟨Prod.ext hk hv, hr⟩

/-! ### Values -/

/-- The reader finds one end of two values with the same text, and takes them for the same. -/
theorem exists_drafts {v w : Json} {rest rest' : List Char} (h : Terminates rest)
    (h' : Terminates rest') (he : v.chars ++ rest = w.chars ++ rest') :
    rest = rest' ∧ ∃ d, Drafts v d ∧ Drafts w d := by
  obtain ⟨d, hr, hd⟩ := v.readable (2 * v.chars.length + 2 * w.chars.length) rest (by omega) h
  obtain ⟨d', hr', hd'⟩ :=
    w.readable (2 * v.chars.length + 2 * w.chars.length) rest' (by omega) h'
  rw [he, hr'] at hr
  cases hr
  exact ⟨rfl, d, hd, hd'⟩

theorem told_chars (v : Json) : Told chars v := by
  induction v using Json.induction with
  | null =>
    intro w rest rest' ht ht' he
    obtain ⟨hr, d, hd, hd'⟩ := exists_drafts ht ht' he
    cases hd
    cases hd'
    exact ⟨rfl, hr⟩
  | bool b =>
    intro w rest rest' ht ht' he
    obtain ⟨hr, d, hd, hd'⟩ := exists_drafts ht ht' he
    cases hd
    cases hd'
    exact ⟨rfl, hr⟩
  | number n =>
    intro w rest rest' ht ht' he
    obtain ⟨-, d, hd, hd'⟩ := exists_drafts ht ht' he
    cases hd
    cases w with
    | number m =>
      obtain ⟨rfl, hr⟩ := Number.chars_append_inj ht ht' he
      exact ⟨rfl, hr⟩
    | _ => cases hd'
  | string s =>
    intro w rest rest' ht ht' he
    obtain ⟨-, d, hd, hd'⟩ := exists_drafts ht ht' he
    cases hd
    cases w with
    | string t =>
      obtain ⟨rfl, hr⟩ := stringChars_append_inj he
      exact ⟨rfl, hr⟩
    | _ => cases hd'
  | array items ih =>
    intro w rest rest' ht ht' he
    obtain ⟨-, d, hd, hd'⟩ := exists_drafts ht ht' he
    cases hd
    cases w with
    | array items' =>
      simp only [chars, itemsChars_eq_map, List.cons_append, List.append_assoc,
        List.nil_append] at he
      have hne (v : Json) (cs cs' : List Char) : v.chars ++ cs ≠ ']' :: cs' := by
        obtain ⟨c, ds, hv, -, hc⟩ := v.chars_eq_cons
        rw [hv]
        exact fun he => hc (List.cons.inj he).1
      obtain ⟨rfl, hr⟩ := told_commas (.inl rfl) hne ih (List.cons.inj he).2
      exact ⟨rfl, hr⟩
    | _ => cases hd'
  | object entries ih =>
    intro w rest rest' ht ht' he
    obtain ⟨-, d, hd, hd'⟩ := exists_drafts ht ht' he
    cases hd
    cases w with
    | object entries' =>
      simp only [chars, entriesChars_eq_map, List.cons_append, List.append_assoc,
        List.nil_append] at he
      have hne (e : String × Json) (cs cs' : List Char) :
          entryChars e ++ cs ≠ '\x7d' :: cs' := by
        intro he
        cases he
      obtain ⟨rfl, hr⟩ := told_commas (.inr rfl) hne (fun e he => told_entry (ih e he))
        (List.cons.inj he).2
      exact ⟨rfl, hr⟩
    | _ => cases hd'

/-- Values with the same text are the same. -/
theorem text_injective : Function.Injective text := by
  intro v w h
  have he : v.chars ++ [] = w.chars ++ [] := by
    rw [List.append_nil, List.append_nil]
    simpa [text] using congrArg String.toList h
  exact (told_chars v w [] [] .nil .nil he).1

end RemoteCall.Json
