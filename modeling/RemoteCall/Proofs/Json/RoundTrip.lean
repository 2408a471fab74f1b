import RemoteCall.Json.Parser
import RemoteCall.Proofs.Entries
import RemoteCall.Proofs.Json.Number
import RemoteCall.Proofs.Json.Scalar
import RemoteCall.Proofs.Json.Value
import RemoteCall.Proofs.Outcome

/-!
Reading back the compact text of a value. The reader makes a draft of the text that says what the
value says, but for fractions, which may be read as others; so every value without fractions comes
back from its draft.
-/

namespace RemoteCall.Json

open Numeric (isDigit)

mutual

/-- A draft without faults that says the same as a value. -/
inductive Drafts : Json → Draft → Prop
  | null : Drafts .null .null
  | bool (b : Bool) : Drafts (.bool b) (.bool b)
  | number (n : Number) : Drafts (.number n) (.number n.reread)
  | string (s : String) : Drafts (.string s) (.string (unitsOf s.toList))
  | array {items : List Json} {ds : List Draft} :
    ItemDrafts items ds → Drafts (.array items) (.array ds none)
  | object {entries : List (String × Json)} {ks : List (Key × Draft)} :
    EntryDrafts entries ks → Drafts (.object entries) (.object ks none)

inductive ItemDrafts : List Json → List Draft → Prop
  | nil : ItemDrafts [] []
  | cons {v : Json} {vs : List Json} {d : Draft} {ds : List Draft} :
    Drafts v d → ItemDrafts vs ds → ItemDrafts (v :: vs) (d :: ds)

inductive EntryDrafts : List (String × Json) → List (Key × Draft) → Prop
  | nil : EntryDrafts [] []
  | cons {key : String} {v : Json} {es : List (String × Json)} {source : List Char} {d : Draft}
      {ks : List (Key × Draft)} :
    Drafts v d → EntryDrafts es ks →
    EntryDrafts ((key, v) :: es) ((⟨.ok key, source⟩, d) :: ks)

end

/-! ### From text to drafts -/

/-- The text of a value is read as a draft of it, with what follows left over. -/
def Readable (v : Json) : Prop :=
  ∀ steps rest, 2 * v.chars.length ≤ steps → Terminates rest →
    ∃ d, readValue steps (v.chars ++ rest) = (d, some rest) ∧ Drafts v d

theorem skipSpace_cons {c : Char} (h : isSpace c = false) (cs : List Char) :
    skipSpace (c :: cs) = c :: cs :=
  List.dropWhile_cons_of_neg (by simp [h])

theorem readValue_scalar {c : Char} (h : isSpace c = false) (hs : c ≠ '[') (hb : c ≠ '\x7b')
    (steps : Nat) (cs : List Char) : readValue (steps + 1) (c :: cs) = readScalar (c :: cs) := by
  rw [readValue, skipSpace_cons h]
  simp only [List.cons.injEq, hs, hb, false_and, imp_self, implies_true]

theorem readValue_array {c : Char} {cs : List Char} {steps : Nat} {items : List Draft}
    {stop : Option Flaw} {left : Option (List Char)} (hc : isSpace c = false) (hne : c ≠ ']')
    (h : readItems steps (c :: cs) = (items, stop, left)) :
    readValue (steps + 1) ('[' :: c :: cs) = (.array items stop, left) := by
  rw [readValue, skipSpace_cons (show isSpace '[' = false by decide)]
  simp only [skipSpace_cons hc]
  split
  · next he =>
    cases he
    exact absurd rfl hne
  · rw [h]

theorem readValue_object {cs : List Char} {steps : Nat} {entries : List (Key × Draft)}
    {stop : Option Flaw} {left : Option (List Char)}
    (h : readEntries steps ('"' :: cs) = (entries, stop, left)) :
    readValue (steps + 1) ('\x7b' :: '"' :: cs) = (.object entries stop, left) := by
  rw [readValue, skipSpace_cons (show isSpace '\x7b' = false by decide)]
  simp only [skipSpace_cons (show isSpace '"' = false by decide), h]

theorem readable_of_scalar {v : Json} {d : Draft} {c : Char} {cs : List Char}
    (hv : v.chars = c :: cs) (hc : isSpace c = false) (hs : c ≠ '[') (hb : c ≠ '\x7b')
    (hr : ∀ rest, Terminates rest → readScalar (v.chars ++ rest) = (d, some rest))
    (hd : Drafts v d) : Readable v := by
  intro steps rest hn ht
  rw [hv, List.length_cons] at hn
  obtain ⟨steps, rfl⟩ : ∃ k, steps = k + 1 := Nat.exists_eq_add_one.2 (by omega)
  refine ⟨d, ?_, hd⟩
  rw [← hr rest ht, hv]
  exact readValue_scalar hc hs hb steps _

theorem readable_string (s : String) : Readable (.string s) := by
  refine readable_of_scalar rfl (by decide) (by decide) (by decide) ?_ (.string s)
  intro rest _
  have hr :
      readUnits (s.toList.flatMap escape ++ ['"'] ++ rest) = (unitsOf s.toList, .ok rest) := by
    rw [List.append_assoc]
    exact readUnits_text s.toList rest
  simp only [chars, stringChars, List.cons_append, readScalar, hr]

def Leads (c : Char) : Prop := c = '-' ∨ isDigit c = true

theorem Leads.ne {c d : Char} (h : Leads c) (hm : d ≠ '-') (hd : isDigit d = false) :
    c ≠ d := by
  rintro rfl
  cases h with
  | inl h => exact hm h
  | inr h => cases hd.symm.trans h

theorem Leads.not_space {c : Char} (h : Leads c) : isSpace c = false := by
  have hs := h.ne (d := ' ') (by decide) (by decide)
  have ht := h.ne (d := '\t') (by decide) (by decide)
  have hn := h.ne (d := '\n') (by decide) (by decide)
  have hr := h.ne (d := '\r') (by decide) (by decide)
  simp [isSpace, hs, ht, hn, hr]

theorem number_eq_cons (n : Number) : ∃ c cs, n.chars = c :: cs ∧ Leads c := by
  obtain ⟨w, hw⟩ := Numeral.exists_writes n
  obtain ⟨d, ds, hd⟩ := List.exists_cons_of_ne_nil hw.legal.whole.nonempty
  rw [← hw.chars, Numeral.chars]
  split
  · exact ⟨'-', _, rfl, .inl rfl⟩
  · rw [Numeral.unsigned, hd]
    exact ⟨d, _, rfl, .inr (hw.legal.whole.digits d (hd ▸ List.mem_cons_self))⟩

theorem readScalar_number {c : Char} {cs rest : List Char} {n : Option Number} (hc : Leads c)
    (hr : readNumber (c :: cs) = .ok (n, rest)) :
    readScalar (c :: cs) = (.number n, some rest) := by
  have hq := hc.ne (d := '"') (by decide) (by decide)
  have hn := hc.ne (d := 'n') (by decide) (by decide)
  have ht := hc.ne (d := 't') (by decide) (by decide)
  have hf := hc.ne (d := 'f') (by decide) (by decide)
  have hl : (c = '-' || isDigit c) = true := by simpa [Leads] using hc
  unfold readScalar
  simp only [hl, if_true, hr]

theorem readable_number (n : Number) : Readable (.number n) := by
  obtain ⟨c, cs, hv, hc⟩ := number_eq_cons n
  refine readable_of_scalar hv hc.not_space (hc.ne (by decide) (by decide))
    (hc.ne (by decide) (by decide)) ?_ (.number n)
  intro rest ht
  have hr := n.readNumber_chars ht
  change readScalar (n.chars ++ rest) = _
  rw [hv, List.cons_append] at hr ⊢
  exact readScalar_number hc hr

/-- A value begins with what is neither a space nor the end of an array. -/
theorem chars_eq_cons (v : Json) :
    ∃ c cs, v.chars = c :: cs ∧ isSpace c = false ∧ c ≠ ']' := by
  cases v with
  | null => exact ⟨_, _, rfl, by decide, by decide⟩
  | bool b => cases b <;> exact ⟨_, _, rfl, by decide, by decide⟩
  | number n =>
    obtain ⟨c, cs, hv, hc⟩ := number_eq_cons n
    exact ⟨c, cs, hv, hc.not_space, hc.ne (by decide) (by decide)⟩
  | string s => exact ⟨_, _, rfl, by decide, by decide⟩
  | array items => exact ⟨_, _, rfl, by decide, by decide⟩
  | object entries => exact ⟨_, _, rfl, by decide, by decide⟩

theorem commas_cons_eq_cons (c : Char) (cs : List Char) (pieces : List (List Char)) :
    ∃ rest, commas ((c :: cs) :: pieces) = c :: rest := by
  cases pieces with
  | nil => exact ⟨cs, rfl⟩
  | cons piece pieces => exact ⟨_, rfl⟩

theorem readItems_commas {items : List Json} (hn : items ≠ []) (h : ∀ v ∈ items, Readable v)
    (steps : Nat) (hs : 2 * (commas (itemsChars items)).length + 1 ≤ steps) (rest : List Char) :
    ∃ ds, readItems steps (commas (itemsChars items) ++ ']' :: rest) = (ds, none, some rest) ∧
      ItemDrafts items ds := by
  induction items generalizing steps with
  | nil => exact absurd rfl hn
  | cons v vs ih =>
    obtain ⟨steps, rfl⟩ : ∃ k, steps = k + 1 := Nat.exists_eq_add_one.2 (by omega)
    have hv := h v List.mem_cons_self
    cases vs with
    | nil =>
      simp only [itemsChars, commas] at hs ⊢
      obtain ⟨d, hr, hd⟩ := hv steps (']' :: rest) (by omega) (.cons (by decide) rest)
      refine ⟨[d], ?_, .cons hd .nil⟩
      rw [readItems, hr]
      rfl
    | cons u us =>
      simp only [itemsChars, commas, List.length_append, List.length_cons] at hs ih ⊢
      obtain ⟨ds, hrs, hds⟩ := ih (List.cons_ne_nil u us)
        (fun w hw => h w (List.mem_cons_of_mem v hw)) steps (by omega)
      obtain ⟨d, hr, hd⟩ := hv steps (',' :: (commas (u.chars :: itemsChars us) ++ ']' :: rest))
        (by omega) (.cons (by decide) _)
      refine ⟨d :: ds, ?_, .cons hd hds⟩
      rw [List.append_assoc, List.cons_append, readItems, hr]
      simp only [skipSpace_cons (show isSpace ',' = false by decide), hrs]

theorem readEntries_commas {entries : List (String × Json)} (hn : entries ≠ [])
    (h : ∀ e ∈ entries, Readable e.2) (steps : Nat)
    (hs : 2 * (commas (entriesChars entries)).length + 1 ≤ steps) (rest : List Char) :
    ∃ ks, readEntries steps (commas (entriesChars entries) ++ '\x7d' :: rest) =
      (ks, none, some rest) ∧ EntryDrafts entries ks := by
  have hq : isSpace '"' = false := by decide
  have hc : isSpace ':' = false := by decide
  induction entries generalizing steps with
  | nil => exact absurd rfl hn
  | cons e es ih =>
    obtain ⟨key, v⟩ := e
    obtain ⟨steps, rfl⟩ : ∃ k, steps = k + 1 := Nat.exists_eq_add_one.2 (by omega)
    have hv : Readable v := h (key, v) List.mem_cons_self
    cases es with
    | nil =>
      simp only [entriesChars, commas, stringChars, List.length_append, List.length_cons,
        List.append_assoc, List.cons_append, List.nil_append] at hs ⊢
      obtain ⟨d, hr, hd⟩ := hv steps ('\x7d' :: rest) (by omega) (.cons (by decide) rest)
      refine
        ⟨[(⟨.ok key, key.toList.flatMap escape ++ '"' :: ':' :: (v.chars ++ '\x7d' :: rest)⟩,
        d)], ?_, .cons hd .nil⟩
      rw [readEntries]
      simp only [skipSpace_cons hq, skipSpace_cons hc, readUnits_text, keyOf_unitsOf,
        String.ofList_toList, hr, skipSpace_cons (show isSpace '\x7d' = false by decide)]
    | cons f fs =>
      have hcs : commas (entriesChars ((key, v) :: f :: fs)) =
          stringChars key ++ ':' :: v.chars ++ ',' :: commas (entriesChars (f :: fs)) := rfl
      simp only [hcs, stringChars, List.length_append, List.length_cons, List.append_assoc,
        List.cons_append, List.nil_append] at hs ⊢
      obtain ⟨ks, hrs, hks⟩ := ih (List.cons_ne_nil f fs)
        (fun g hg => h g (List.mem_cons_of_mem (key, v) hg)) steps (by omega)
      have hm := hv steps (',' :: (commas (entriesChars (f :: fs)) ++ '\x7d' :: rest)) (by omega)
        (.cons (by decide) _)
      obtain ⟨d, hr, hd⟩ := hm
      refine ⟨(⟨.ok key, key.toList.flatMap escape ++ '"' :: ':' :: (v.chars ++
        ',' :: (commas (entriesChars (f :: fs)) ++ '\x7d' :: rest))⟩, d) :: ks, ?_,
        .cons hd hks⟩
      rw [readEntries]
      simp only [skipSpace_cons hq, skipSpace_cons hc, readUnits_text, keyOf_unitsOf,
        String.ofList_toList, hr, skipSpace_cons (show isSpace ',' = false by decide), hrs]

theorem readable (v : Json) : Readable v := by
  induction v using Json.induction with
  | null => exact readable_of_scalar rfl (by decide) (by decide) (by decide) (fun _ _ => rfl) .null
  | bool b =>
    cases b with
    | true =>
      exact readable_of_scalar rfl (by decide) (by decide) (by decide) (fun _ _ => rfl) (.bool true)
    | false =>
      exact readable_of_scalar rfl (by decide) (by decide) (by decide) (fun _ _ => rfl)
        (.bool false)
  | number n => exact readable_number n
  | string s => exact readable_string s
  | array items ih =>
    intro steps rest hn _
    simp only [chars, List.length_append, List.length_cons] at hn
    obtain ⟨steps, rfl⟩ : ∃ k, steps = k + 1 := Nat.exists_eq_add_one.2 (by omega)
    cases items with
    | nil => exact ⟨_, rfl, .array .nil⟩
    | cons v vs =>
      obtain ⟨ds, hr, hd⟩ := readItems_commas (List.cons_ne_nil v vs) ih steps (by omega) rest
      refine ⟨.array ds none, ?_, .array hd⟩
      obtain ⟨c, cs, hv, hc, hne⟩ := v.chars_eq_cons
      obtain ⟨more, hm⟩ := commas_cons_eq_cons c cs (itemsChars vs)
      rw [itemsChars, hv, hm] at hr
      simp only [chars, itemsChars, hv, hm, List.cons_append, List.append_assoc, List.nil_append]
      exact readValue_array hc hne hr
  | object entries ih =>
    intro steps rest hn _
    simp only [chars, List.length_append, List.length_cons] at hn
    obtain ⟨steps, rfl⟩ : ∃ k, steps = k + 1 := Nat.exists_eq_add_one.2 (by omega)
    cases entries with
    | nil => exact ⟨_, rfl, .object .nil⟩
    | cons e es =>
      obtain ⟨ks, hr, hd⟩ := readEntries_commas (List.cons_ne_nil e es) ih steps (by omega) rest
      refine ⟨.object ks none, ?_, .object hd⟩
      obtain ⟨key, v⟩ := e
      obtain ⟨more, hm⟩ := commas_cons_eq_cons '"' (key.toList.flatMap escape ++ ['"'] ++
        ':' :: v.chars) (entriesChars es)
      have he : commas (entriesChars ((key, v) :: es)) = '"' :: more := hm
      rw [he] at hr
      simp only [chars, he, List.cons_append, List.append_assoc, List.nil_append]
      exact readValue_object hr

/-! ### From drafts to values -/

/-- A draft of a value is taken for that value wherever it may be nested so deep. -/
def Valued (v : Json) : Prop :=
  ∀ depth d, v.depth ≤ depth → Drafts v d → d.value depth = .ok v

theorem itemValues_eq {depth : Nat} {items : List Json} {ds : List Draft}
    (h : ∀ v ∈ items, Valued v) (hd : ItemDrafts items ds) (hn : itemsDepth items ≤ depth) :
    Draft.itemValues depth ds = .ok items := by
  induction items generalizing ds with
  | nil =>
    cases hd
    rfl
  | cons v vs ih =>
    cases hd with
    | cons hv hvs =>
      rw [itemsDepth] at hn
      have hone := h v List.mem_cons_self depth _ (by omega) hv
      have hall := ih (fun w hw => h w (List.mem_cons_of_mem v hw)) hvs (by omega)
      rw [Draft.itemValues, hone, hall]
      rfl

theorem entryValues_eq {depth : Nat} {entries : List (String × Json)} {ks : List (Key × Draft)}
    (h : ∀ e ∈ entries, Valued e.2) (hd : EntryDrafts entries ks)
    (hn : entriesDepth entries ≤ depth) : Draft.entryValues depth ks = .ok entries := by
  induction entries generalizing ks with
  | nil =>
    cases hd
    rfl
  | cons e es ih =>
    obtain ⟨key, v⟩ := e
    have hval : Valued v := h (key, v) List.mem_cons_self
    cases hd with
    | cons hv hes =>
      rw [entriesDepth] at hn
      have hone := hval depth _ (by omega) hv
      have hall := ih (fun f hf => h f (List.mem_cons_of_mem _ hf)) hes (by omega)
      rw [Draft.entryValues, hone, hall]
      rfl

theorem Whole.valued {v : Json} (h : Whole v) (ho : Ordered v) : Valued v := by
  induction h with
  | null =>
    intro depth d _ hd
    cases hd
    rfl
  | bool b =>
    intro depth d _ hd
    cases hd
    rfl
  | integer n =>
    intro depth d _ hd
    cases hd
    rw [Number.reread_integer]
    rfl
  | string s =>
    intro depth d _ hd
    cases hd
    simp [Draft.value]
  | array h ih =>
    rw [ordered_array] at ho
    intro depth d hn hd
    cases hd with
    | array hi =>
      obtain ⟨depth, rfl⟩ := Nat.exists_eq_add_one.2 (Nat.lt_of_lt_of_le (Nat.succ_pos _) hn)
      rw [Draft.value, itemValues_eq (fun v hv => ih v hv (ho v hv)) hi (Nat.le_of_succ_le_succ hn)]
      rfl
  | object h ih =>
    rw [ordered_object] at ho
    intro depth d hn hd
    cases hd with
    | object he =>
      obtain ⟨depth, rfl⟩ := Nat.exists_eq_add_one.2 (Nat.lt_of_lt_of_le (Nat.succ_pos _) hn)
      rw [Draft.value,
        entryValues_eq (fun e he => ih e he (ho.2 e he)) he (Nat.le_of_succ_le_succ hn)]
      simp only [bind, Except.bind, ofEntries, Entries.ofList_eq_self ho.1]
      rfl

mutual

/-- Drafts of one value differ only in what follows their keys, and are taken for the same. -/
theorem Drafts.value_eq : ∀ {v : Json} {d d' : Draft}, Drafts v d → Drafts v d' →
    ∀ depth, d.value depth = d'.value depth
  | _, _, _, .null, .null, _ => rfl
  | _, _, _, .bool b, .bool _, _ => rfl
  | _, _, _, .number n, .number _, _ => rfl
  | _, _, _, .string s, .string _, _ => rfl
  | _, _, _, .array h, .array h', depth => by
    cases depth with
    | zero => rfl
    | succ depth => rw [Draft.value, Draft.value, ItemDrafts.itemValues_eq h h' depth]
  | _, _, _, .object h, .object h', depth => by
    cases depth with
    | zero => rfl
    | succ depth => rw [Draft.value, Draft.value, EntryDrafts.entryValues_eq h h' depth]

theorem ItemDrafts.itemValues_eq : ∀ {vs : List Json} {ds ds' : List Draft}, ItemDrafts vs ds →
    ItemDrafts vs ds' → ∀ depth, Draft.itemValues depth ds = Draft.itemValues depth ds'
  | _, _, _, .nil, .nil, _ => rfl
  | _, _, _, .cons h hs, .cons h' hs', depth => by
    rw [Draft.itemValues, Draft.itemValues, h.value_eq h' depth, hs.itemValues_eq hs' depth]

theorem EntryDrafts.entryValues_eq :
    ∀ {es : List (String × Json)} {ks ks' : List (Key × Draft)},
    EntryDrafts es ks → EntryDrafts es ks' →
    ∀ depth, Draft.entryValues depth ks = Draft.entryValues depth ks'
  | _, _, _, .nil, .nil, _ => rfl
  | _, _, _, .cons h hs, .cons h' hs', depth => by
    rw [Draft.entryValues, Draft.entryValues, h.value_eq h' depth, hs.entryValues_eq hs' depth]

end

/-! ### Whole texts -/

theorem exists_readText (v : Json) : ∃ d, readText v.chars = (d, none) ∧ Drafts v d := by
  obtain ⟨d, hr, hd⟩ := v.readable (2 * v.chars.length + 2) [] (by omega) .nil
  rw [List.append_nil] at hr
  refine ⟨d, ?_, hd⟩
  rw [readText, hr]
  rfl

/-- What is read of the text of a value, where containers may be nested `depth` deep. -/
def reread (depth : Nat) (v : Json) : Except Flaw Json := (readText v.chars).1.value depth

theorem Drafts.value_eq_reread {v : Json} {d : Draft} (h : Drafts v d) (depth : Nat) :
    d.value depth = v.reread depth := by
  obtain ⟨d', hr, hd⟩ := v.exists_readText
  rw [reread, hr]
  exact h.value_eq hd depth

theorem Whole.reread_eq {v : Json} (hw : Whole v) (ho : Ordered v) {depth : Nat}
    (hn : v.depth ≤ depth) : v.reread depth = .ok v := by
  obtain ⟨d, hr, hd⟩ := v.exists_readText
  rw [reread, hr]
  exact hw.valued ho depth d hn hd

/-- The reader inverts the writer. -/
theorem parse_chars {v : Json} (hw : Whole v) (ho : Ordered v) (hn : v.depth ≤ depthLimit) :
    parse v.chars = .ok v := by
  obtain ⟨d, hr, hd⟩ := v.exists_readText
  rw [parse, hr]
  simp only [bind, Except.bind, hw.valued ho depthLimit d hn hd]
  rfl

/-- What is read of the entries of an object, one by one. -/
theorem EntryDrafts.forall₂ {entries : List (String × Json)} {ks : List (Key × Draft)}
    (hd : EntryDrafts entries ks) {depth : Nat} {es : List (String × Json)}
    (h : Draft.entryValues depth ks = .ok es) :
    List.Forall₂ (fun e f => f.1 = e.1 ∧ e.2.reread depth = .ok f.2) entries es := by
  induction entries generalizing ks es with
  | nil =>
    cases hd
    cases h
    exact .nil
  | cons e entries ih =>
    cases hd with
    | cons hv hes =>
      simp only [Draft.entryValues, Outcome.bind_eq_ok_iff] at h
      obtain ⟨key, hk, v, hv', rest, hr, he⟩ := h
      cases hk
      cases he
      rw [hv.value_eq_reread] at hv'
      exact .cons ⟨rfl, hv'⟩ (ih hes hr)

/-- What is read of the text of an object has the same keys, and under them what is read of its
values. -/
theorem parse_object {entries : List (String × Json)} {v : Json}
    (h : parse (object entries).chars = .ok v) :
    ∃ es, v = .ofEntries es ∧
      List.Forall₂ (fun e f => f.1 = e.1 ∧ e.2.reread 126 = .ok f.2) entries es := by
  obtain ⟨d, hr, hd⟩ := (object entries).exists_readText
  rw [parse, hr] at h
  cases hd with
  | object he =>
    simp only [Draft.value, depthLimit, Outcome.bind_eq_ok_iff] at h
    obtain ⟨w, ⟨es, hes, hw⟩, hv⟩ := h
    cases hw
    cases hv
    exact ⟨es, rfl, he.forall₂ hes⟩

end RemoteCall.Json
