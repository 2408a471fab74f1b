import RemoteCall.Proofs.Entries
import RemoteCall.Proofs.Yaml.Node

/-!
The value that the node of a value stands for. All of it comes back but for binary fractions, whose
text may stand for another fraction.
-/

namespace RemoteCall.Yaml

open Json (Fractional isFractionChar floatChars_eq)
open Numeric (isDigit decimal decimalDigits)

/-! ### Numbers -/

/-- Text in front of which stands a digit or a minus. -/
def LooksNumeric (cs : List Char) : Prop :=
  ∃ c ds, cs = c :: ds ∧ (isDigit c = true ∨ c = '-')

theorem LooksNumeric.not_mem {cs : List Char} (h : LooksNumeric cs) {ws : List String}
    (hw : ∀ w ∈ ws, (w.toList.head?.any fun c => isDigit c || c = '-') = false) :
    String.ofList cs ∉ ws := by
  obtain ⟨c, ds, rfl, hc⟩ := h
  intro hm
  have hn : (isDigit c || decide (c = '-')) = false := by simpa using hw _ hm
  rcases hc with hc | rfl
  · rw [hc] at hn
    cases hn
  · simp at hn

theorem plainJson_of_looksNumeric {cs : List Char} (h : LooksNumeric cs) :
    plainJson (String.ofList cs) =
      match wholeJson? (String.ofList cs) with
      | some v => v
      | none =>
        if isPadded (unsigned cs) then .ok (.string (String.ofList cs))
        else .ok ((fraction? (String.ofList cs)).getD (.string (String.ofList cs))) := by
  have hn : ¬ (String.ofList cs = "" || isNullWord (String.ofList cs)) := by
    have hw : String.ofList cs ∉ ["null", "Null", "NULL", "~"] := h.not_mem (by decide)
    have he : cs ≠ [] := by
      obtain ⟨c, ds, rfl, -⟩ := h
      exact List.cons_ne_nil c ds
    simp only [isNullWord, hw, decide_false, Bool.or_false, decide_eq_true_eq]
    simpa using he
  have hb : boolWord? (String.ofList cs) = none := by
    rw [boolWord?, if_neg (h.not_mem (by decide)), if_neg (h.not_mem (by decide))]
  rw [plainJson, if_neg hn, hb, String.toList_ofList]
  cases wholeJson? (String.ofList cs) <;> rfl

theorem magnitude?_eq {cs : List Char} (h : ∀ c ∈ cs, isFractionChar c = true) :
    magnitude? cs = if isPadded cs then none else Numeric.natOfDigits? 10 cs := by
  have hx : ∀ c ∈ ['x', 'o', 'b'], isFractionChar c = false :=
    List.all_iff_forall_prop.1 (by decide)
  unfold magnitude?
  split
  · cases (hx 'x' (by decide)).symm.trans (h 'x' (by simp))
  · cases (hx 'o' (by decide)).symm.trans (h 'o' (by simp))
  · cases (hx 'b' (by decide)).symm.trans (h 'b' (by simp))
  · rfl

theorem magnitude?_decimalDigits (n : Nat) : magnitude? (decimalDigits n) = some n := by
  have hp : isPadded (decimalDigits n) = false := by
    cases Nat.eq_zero_or_pos n with
    | inl hn => rw [hn]; rfl
    | inr hn =>
      have hh := Numeric.head?_decimalDigits hn
      unfold isPadded
      split
      · next he =>
        rw [he] at hh
        exact absurd rfl hh
      · rfl
  rw [magnitude?_eq fun c hc =>
    Json.isFractionChar_of_digit (Numeric.isDigit_of_mem_decimalDigits hc), hp]
  exact Numeric.natOfDigits?_toDigits (by decide) (by decide) n

theorem whole?_minus (cs : List Char) :
    whole? ('-' :: cs) = (magnitude? cs).map fun n : Nat => -(n : Int) := by
  rw [whole?]
  cases magnitude? cs <;> rfl

theorem whole?_digit {d : Char} (hd : isDigit d = true) (cs : List Char) :
    whole? (d :: cs) = (magnitude? (d :: cs)).map Int.ofNat := by
  unfold whole?
  split
  · next h =>
    cases h
    cases hd
  · next h =>
    cases h
    cases hd
  · rfl

theorem looksNumeric_decimal (n : Int) : LooksNumeric (decimal n) := by
  obtain ⟨d, ds, hds, hd⟩ := Numeric.decimalDigits_eq_cons n.natAbs
  rw [decimal]
  split
  · exact ⟨_, _, rfl, .inr rfl⟩
  · exact ⟨d, ds, hds, .inl hd⟩

theorem whole?_decimal (n : Int) : whole? (decimal n) = some n := by
  obtain ⟨d, ds, hds, hd⟩ := Numeric.decimalDigits_eq_cons n.natAbs
  have hm := magnitude?_decimalDigits n.natAbs
  rw [decimal]
  split
  · rw [whole?_minus, hm, Option.map_some]
    congr 1
    omega
  · rw [hds] at hm ⊢
    rw [whole?_digit hd, hm, Option.map_some]
    congr 1
    rw [Int.ofNat_eq_natCast]
    omega

theorem plainJson_integer (n : Integer) :
    plainJson (String.ofList (decimal n.val)) = .ok (.integer n) := by
  have hi : Integer.ofInt? n.val = some n := by
    rw [Integer.ofInt?, dif_pos n.property]
  rw [plainJson_of_looksNumeric (looksNumeric_decimal n.val), wholeJson?, String.toList_ofList,
    whole?_decimal]
  simp only [Option.bind_eq_bind, Option.bind_some, hi]

theorem magnitude?_fractional {cs : List Char} (h : Fractional cs) : magnitude? cs = none := by
  have hn : Numeric.natOfDigits? 10 cs = none :=
    h.shown.elim (fun hc => Numeric.natOfDigits?_eq_none hc (by decide))
      (fun hc => Numeric.natOfDigits?_eq_none hc (by decide))
  rw [magnitude?_eq h.chars, hn, ite_self]

/-- The text of a fraction is never taken for a whole number. -/
theorem plainJson_float (x : Numeric.Binary64) :
    ∃ v, plainJson (String.ofList (Json.floatChars x)) = .ok v := by
  obtain ⟨cs, hf, he⟩ := floatChars_eq x
  obtain ⟨d, ds, rfl, hd⟩ := hf.head
  have hm := magnitude?_fractional hf
  have hl : LooksNumeric (Json.floatChars x) := by
    rw [he]
    cases x.negative with
    | false => exact ⟨d, ds, rfl, .inl hd⟩
    | true => exact ⟨_, _, rfl, .inr rfl⟩
  have hw : whole? (Json.floatChars x) = none := by
    rw [he]
    cases x.negative with
    | false =>
      rw [if_neg Bool.false_ne_true, List.nil_append, whole?_digit hd, hm]
      rfl
    | true =>
      rw [if_pos rfl, List.singleton_append, whole?_minus, hm]
      rfl
  rw [plainJson_of_looksNumeric hl, wholeJson?, String.toList_ofList, hw]
  simp only [Option.bind_eq_bind, Option.bind_none]
  split
  · exact ⟨_, rfl⟩
  · exact ⟨_, rfl⟩

/-! ### Values -/

/-- The node of a value is read as a value, and as the same one where all numbers are whole. -/
def Returns (document : Node) (depth : Nat) (v : Json) : Prop :=
  ∃ w, document.value depth (nodeOf v) = pure w ∧ (v.Whole → v.Ordered → w = v)

variable {document : Node} {depth : Nat} {v : Json}

theorem value_scalar {s : String} {plain : Bool} {w : Json}
    (h : (if plain then plainJson s else .ok (.string s)) = .ok w) :
    document.value depth (.scalar .none s plain) = pure w := by
  funext budget
  cases depth <;>
  · rw [Node.value]
    simp only [Node.follow, scalarJson, Properties.none]
    rw [pure_bind]
    simp only [h]
    rfl

theorem returns_string (s : String) : Returns document depth (.string s) := by
  refine ⟨.string s, value_scalar ?_, fun _ _ => rfl⟩
  cases h : isPlainSafe s with
  | true => exact plainJson_of_isPlainSafe h
  | false => rfl

theorem returns_number (x : Json.Number) : Returns document depth (.number x) := by
  cases x with
  | integer n => exact ⟨.integer n, value_scalar (plainJson_integer n), fun _ _ => rfl⟩
  | float x =>
    obtain ⟨w, hw⟩ := plainJson_float x
    exact ⟨w, value_scalar hw, fun h _ => nomatch h⟩

theorem returns_null : Returns document depth .null :=
  ⟨.null, value_scalar rfl, fun _ _ => rfl⟩

theorem returns_bool (b : Bool) : Returns document depth (.bool b) := by
  refine ⟨.bool b, value_scalar ?_, fun _ _ => rfl⟩
  cases b <;> rfl

theorem items_value {vs : List Json} (h : ∀ v ∈ vs, Returns document depth v) :
    ∃ ws, (itemNodes vs).mapM (fun n => document.value depth n) = pure ws ∧
      ((∀ v ∈ vs, v.Whole) → (∀ v ∈ vs, v.Ordered) → ws = vs) := by
  induction vs with
  | nil => exact ⟨[], rfl, fun _ _ => rfl⟩
  | cons v vs ih =>
    obtain ⟨⟨w, hw, hv⟩, hvs⟩ := List.forall_mem_cons.1 h
    obtain ⟨ws, hws, he⟩ := ih hvs
    refine ⟨w :: ws, ?_, ?_⟩
    · rw [itemNodes, List.mapM_cons, hw, pure_bind, hws, pure_bind]
    · intro hwh hor
      obtain ⟨h₁, h₂⟩ := List.forall_mem_cons.1 hwh
      obtain ⟨h₃, h₄⟩ := List.forall_mem_cons.1 hor
      rw [hv h₁ h₃, he h₂ h₄]

theorem keyText_scalar (s : String) (plain : Bool) :
    Node.keyText document (.scalar .none s plain) = pure s := rfl

theorem entries_value {es : List (String × Json)} (h : ∀ e ∈ es, Returns document depth e.2) :
    ∃ ws, (entryNodes es).mapM (fun (k, n) => do
        let key ← Node.keyText document k
        return (key, ← document.value depth n)) = pure ws ∧
      ((∀ e ∈ es, e.2.Whole) → (∀ e ∈ es, e.2.Ordered) → ws = es) := by
  induction es with
  | nil => exact ⟨[], rfl, fun _ _ => rfl⟩
  | cons e es ih =>
    obtain ⟨⟨w, hw, hv⟩, hes⟩ := List.forall_mem_cons.1 h
    obtain ⟨ws, hws, he⟩ := ih hes
    refine ⟨(e.1, w) :: ws, ?_, ?_⟩
    · simp only [entryNodes, List.mapM_cons, keyText_scalar, hw, hws, pure_bind]
    · intro hwh hor
      obtain ⟨h₁, h₂⟩ := List.forall_mem_cons.1 hwh
      obtain ⟨h₃, h₄⟩ := List.forall_mem_cons.1 hor
      rw [hv h₁ h₃, he h₂ h₄]

theorem returns_array {vs : List Json} (h : ∀ v ∈ vs, Returns document depth v) :
    Returns document (depth + 1) (.array vs) := by
  obtain ⟨ws, hws, he⟩ := items_value h
  refine ⟨.array ws, ?_, ?_⟩
  · rw [nodeOf, Node.value]
    simp only [Node.follow, pure_bind, hws]
    rfl
  · intro hw ho
    rw [he (Json.whole_array.1 hw) (Json.ordered_array.1 ho)]

theorem returns_object {es : List (String × Json)} (h : ∀ e ∈ es, Returns document depth e.2) :
    Returns document (depth + 1) (.object es) := by
  obtain ⟨ws, hws, he⟩ := entries_value h
  refine ⟨.ofEntries ws, ?_, ?_⟩
  · rw [nodeOf, Node.value]
    simp only [Node.follow, pure_bind, hws]
    rfl
  · intro hw ho
    obtain ⟨ho, hos⟩ := Json.ordered_object.1 ho
    rw [he (Json.whole_object.1 hw) hos, Json.ofEntries, Entries.ofList_eq_self ho]

theorem returns (document : Node) (v : Json) :
    ∀ depth, v.depth ≤ depth → Returns document depth v := by
  induction v using Json.induction with
  | null => exact fun _ _ => returns_null
  | bool b => exact fun _ _ => returns_bool b
  | number x => exact fun _ _ => returns_number x
  | string s => exact fun _ _ => returns_string s
  | array vs ih =>
    intro depth hd
    rw [Json.depth] at hd
    obtain ⟨depth, rfl⟩ :=
      Nat.exists_eq_add_one_of_ne_zero (Nat.ne_of_gt (Nat.zero_lt_of_lt hd))
    have hvs := Json.itemsDepth_le_iff.1 (Nat.le_of_succ_le_succ hd)
    exact returns_array fun v hv => ih v hv depth (hvs v hv)
  | object es ih =>
    intro depth hd
    rw [Json.depth] at hd
    obtain ⟨depth, rfl⟩ :=
      Nat.exists_eq_add_one_of_ne_zero (Nat.ne_of_gt (Nat.zero_lt_of_lt hd))
    have hes := Json.entriesDepth_le_iff.1 (Nat.le_of_succ_le_succ hd)
    exact returns_object fun e he => ih e he depth (hes e he)

/-- Reading the node of a value as a document. -/
theorem toJson_nodeOf {v : Json} (h : v.depth ≤ depthLimit) :
    ∃ w, (nodeOf v).toJson = .ok w ∧ (v.Whole → v.Ordered → w = v) := by
  obtain ⟨w, hw, he⟩ := returns (nodeOf v) v depthLimit h
  refine ⟨w, ?_, he⟩
  rw [Node.toJson, hw]
  rfl

end RemoteCall.Yaml
