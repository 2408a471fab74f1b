import RemoteCall.Proofs.Yaml.Layout

/-! The node that the tokens of a value are composed to. -/

namespace RemoteCall.Yaml

mutual

def nodeOf : Json → Node
  | .array items => .sequence .none (itemNodes items)
  | .object entries => .mapping .none (entryNodes entries)
  | .string s => .scalar .none s (isPlainSafe s)
  | v => .scalar .none (String.ofList (inlineChars v)) true

def itemNodes : List Json → List Node
  | [] => []
  | v :: vs => nodeOf v :: itemNodes vs

def entryNodes : List (String × Json) → List (Node × Node)
  | [] => []
  | (k, v) :: es => (.scalar .none k (isPlainSafe k), nodeOf v) :: entryNodes es

end

/-- The tokens with which the node of a value begins. -/
def opensNode : Token → Bool
  | .scalar .. => true
  | .flowSequence => true
  | .flowMapping => true
  | .blockSequence => true
  | .blockMapping => true
  | _ => false

theorem tokensOf_eq_cons (v : Json) : ∃ t ts, tokensOf v = t :: ts ∧ opensNode t = true := by
  match v with
  | .null => exact ⟨_, _, rfl, rfl⟩
  | .bool _ => exact ⟨_, _, rfl, rfl⟩
  | .number _ => exact ⟨_, _, rfl, rfl⟩
  | .string _ => exact ⟨_, _, rfl, rfl⟩
  | .array [] => exact ⟨_, _, rfl, rfl⟩
  | .array (_ :: _) => exact ⟨_, _, rfl, rfl⟩
  | .object [] => exact ⟨_, _, rfl, rfl⟩
  | .object (_ :: _) => exact ⟨_, _, rfl, rfl⟩

namespace Composing

variable {fuel : Nat} {dashes : Bool} {ts : List Token} {t : Token} {h : List (String × String)}
  {slots : Entries Nat} {c d : Composer} {n : Node} {ns : List Node} {es : List (Node × Node)}

theorem pure_apply {α : Type} (x : α) (c : Composer) : (pure x : Composing α) c = .ok (x, c) :=
  rfl

theorem node_scalar (fuel : Nat) (dashes : Bool) (s : String) (plain : Bool) (ts : List Token) :
    node (fuel + 1) true dashes ⟨.scalar s plain :: ts, h, slots⟩ =
      .ok (.scalar .none s plain, ⟨ts, h, slots⟩) := by
  rw [node]
  rfl

theorem node_blockSequence (hi : blockItems fuel ⟨ts, h, slots⟩ = .ok (ns, c)) (dashes : Bool) :
    node (fuel + 1) true dashes ⟨.blockSequence :: ts, h, slots⟩ =
      .ok (.sequence .none ns, c) := by
  rw [node]
  cases dashes <;>
    simp [bind, StateT.bind, Except.bind, peek, properties, anchor?, tag?, skip, hi, pure_apply,
      Properties.none]

theorem node_blockMapping (he : blockEntries fuel ⟨ts, h, slots⟩ = .ok (es, c))
    (dashes : Bool) :
    node (fuel + 1) true dashes ⟨.blockMapping :: ts, h, slots⟩ =
      .ok (.mapping .none es, c) := by
  rw [node]
  cases dashes <;>
    simp [bind, StateT.bind, Except.bind, peek, properties, anchor?, tag?, skip, he, pure_apply,
      Properties.none]

theorem blockItems_entry (ho : opensNode t = true)
    (hn : node fuel true false ⟨t :: ts, h, slots⟩ = .ok (n, c))
    (hi : blockItems fuel c = .ok (ns, d)) :
    blockItems (fuel + 1) ⟨.blockEntry :: t :: ts, h, slots⟩ = .ok (n :: ns, d) := by
  have ht : (t = .blockEntry || t = .blockEnd) = false := by
    cases t <;> first | rfl | cases ho
  rw [blockItems]
  simp [bind, StateT.bind, Except.bind, peek, advance, skip, ht, hn, hi, pure_apply]

theorem blockEntries_entry (ho : opensNode t = true) (k : String) (plain : Bool)
    (hn : node (fuel + 1) true true ⟨t :: ts, h, slots⟩ = .ok (n, c))
    (he : blockEntries (fuel + 1) c = .ok (es, d)) :
    blockEntries (fuel + 2) ⟨.key :: .scalar k plain :: .value :: t :: ts, h, slots⟩ =
      .ok ((.scalar .none k plain, n) :: es, d) := by
  have ht : endsBlockPart t = false := by
    cases t <;> first | rfl | cases ho
  have hs : endsBlockPart (.scalar k plain) = false := rfl
  have hk :
    node (fuel + 1) true true ⟨.scalar k plain :: .value :: t :: ts, h, slots⟩ = .ok _ :=
    node_scalar fuel true k plain (.value :: t :: ts)
  rw [blockEntries]
  simp [bind, StateT.bind, Except.bind, peek, advance, skip, ht, hn, he, hk, hs, pure_apply]

end Composing

open Composing

variable {v : Json} {h : List (String × String)} {slots : Entries Nat}

/-- The node of a value is composed from its tokens, whatever follows them. -/
def Composes (v : Json) : Prop :=
  ∀ fuel, (tokensOf v).length ≤ fuel → ∀ dashes rest h slots,
    node fuel true dashes ⟨tokensOf v ++ rest, h, slots⟩ = .ok (nodeOf v, ⟨rest, h, slots⟩)

theorem blockItems_tokens {vs : List Json} (hv : ∀ v ∈ vs, Composes v) (rest : List Token)
    {fuel : Nat} (hf : (itemsTokens vs).length < fuel) :
    blockItems fuel ⟨itemsTokens vs ++ .blockEnd :: rest, h, slots⟩ =
      .ok (itemNodes vs, ⟨rest, h, slots⟩) := by
  obtain ⟨fuel, rfl⟩ := Nat.exists_eq_add_one_of_ne_zero (Nat.ne_of_gt (Nat.zero_lt_of_lt hf))
  induction vs generalizing fuel with
  | nil =>
    rw [blockItems]
    rfl
  | cons v vs ih =>
    obtain ⟨hv, hvs⟩ := List.forall_mem_cons.1 hv
    simp only [itemsTokens, List.cons_append, List.length_cons, List.length_append] at hf
    obtain ⟨t, ts, ht, ho⟩ := tokensOf_eq_cons v
    have hn := hv fuel (by omega) false (itemsTokens vs ++ .blockEnd :: rest) h slots
    have hl : 0 < (tokensOf v).length := by simp [ht]
    obtain ⟨fuel, rfl⟩ := Nat.exists_eq_add_one_of_ne_zero (n := fuel) (by omega)
    rw [itemsTokens, List.cons_append, List.cons_append, List.append_assoc]
    rw [ht, List.cons_append] at hn ⊢
    exact blockItems_entry ho hn (ih hvs fuel (by omega))

theorem blockEntries_tokens {es : List (String × Json)} (he : ∀ e ∈ es, Composes e.2)
    (rest : List Token) {fuel : Nat} (hf : (entriesTokens es).length < fuel) :
    blockEntries fuel ⟨entriesTokens es ++ .blockEnd :: rest, h, slots⟩ =
      .ok (entryNodes es, ⟨rest, h, slots⟩) := by
  obtain ⟨fuel, rfl⟩ := Nat.exists_eq_add_one_of_ne_zero (Nat.ne_of_gt (Nat.zero_lt_of_lt hf))
  induction es generalizing fuel with
  | nil =>
    rw [blockEntries]
    rfl
  | cons e es ih =>
    obtain ⟨he, hes⟩ := List.forall_mem_cons.1 he
    simp only [entriesTokens, List.cons_append, List.length_cons, List.length_append] at hf
    obtain ⟨t, ts, ht, ho⟩ := tokensOf_eq_cons e.2
    have hn := he fuel (by omega) true (entriesTokens es ++ .blockEnd :: rest) h slots
    obtain ⟨fuel, rfl⟩ := Nat.exists_eq_add_one_of_ne_zero (n := fuel) (by omega)
    simp only [entriesTokens, List.cons_append, List.append_assoc]
    rw [ht, List.cons_append] at hn ⊢
    exact blockEntries_entry ho e.1 _ hn (ih hes fuel (by omega))

theorem Composes.of_scalar {s : String} {plain : Bool} (ht : tokensOf v = [.scalar s plain])
    (hn : nodeOf v = .scalar .none s plain) : Composes v := by
  intro fuel hf dashes rest h slots
  rw [ht] at hf ⊢
  obtain ⟨fuel, rfl⟩ := Nat.exists_eq_add_one_of_ne_zero (Nat.ne_of_gt hf)
  rw [hn]
  exact node_scalar fuel dashes s plain rest

theorem Composes.array {vs : List Json} (hv : ∀ v ∈ vs, Composes v) : Composes (.array vs) := by
  intro fuel hf dashes rest h slots
  cases vs with
  | nil =>
    obtain ⟨fuel, rfl⟩ := Nat.exists_eq_add_of_le' hf
    cases dashes <;> rfl
  | cons v vs =>
    simp only [tokensOf, List.cons_append, List.length_cons, List.length_append] at hf
    obtain ⟨fuel, rfl⟩ := Nat.exists_eq_add_one_of_ne_zero (n := fuel) (by omega)
    simp only [tokensOf, List.cons_append, List.append_assoc]
    exact node_blockSequence (blockItems_tokens hv rest (by omega)) dashes

theorem Composes.object {es : List (String × Json)} (he : ∀ e ∈ es, Composes e.2) :
    Composes (.object es) := by
  intro fuel hf dashes rest h slots
  cases es with
  | nil =>
    obtain ⟨fuel, rfl⟩ := Nat.exists_eq_add_of_le' hf
    cases dashes <;> rfl
  | cons e es =>
    simp only [tokensOf, List.cons_append, List.length_cons, List.length_append] at hf
    obtain ⟨fuel, rfl⟩ := Nat.exists_eq_add_one_of_ne_zero (n := fuel) (by omega)
    simp only [tokensOf, List.cons_append, List.append_assoc]
    exact node_blockMapping (blockEntries_tokens he rest (by omega)) dashes

theorem composes (v : Json) : Composes v := by
  induction v using Json.induction with
  | null => exact .of_scalar rfl rfl
  | bool b => exact .of_scalar rfl rfl
  | number x => exact .of_scalar rfl rfl
  | string s => exact .of_scalar rfl rfl
  | array vs ih => exact .array ih
  | object es ih => exact .object ih

theorem compose_of_node {t : Token} {ts : List Token} {n : Node} (ho : opensNode t = true)
    (hn : node (3 * (t :: ts).length + 3) true false ⟨t :: ts, commonHandles, []⟩ =
      .ok (n, ⟨[.streamEnd], h, slots⟩)) : compose (t :: ts) = .ok n := by
  have hd : directives (t :: ts) false [] = .ok (t :: ts, []) := by
    cases t <;> first | rfl | cases ho
  have he : t ≠ .streamEnd ∧ t ≠ .documentStart := by
    constructor <;> rintro rfl <;> cases ho
  rw [compose, hd]
  simp only [List.headD_cons, he, bind, Except.bind, pure, Except.pure, decide_false, if_false,
          List.nil_append, hn]
  simp

/-- The tokens of a value are those of one document. -/
theorem compose_tokensOf (v : Json) : compose (tokensOf v ++ [.streamEnd]) = .ok (nodeOf v) := by
  obtain ⟨t, ts, ht, ho⟩ := tokensOf_eq_cons v
  have he : tokensOf v ++ [.streamEnd] = t :: (ts ++ [.streamEnd]) := by rw [ht, List.cons_append]
  have hl : (tokensOf v).length ≤ 3 * (t :: (ts ++ [Token.streamEnd])).length + 3 := by
    rw [← he, List.length_append]
    omega
  have hn := composes v _ hl false [.streamEnd] commonHandles []
  rw [he] at hn ⊢
  exact compose_of_node ho hn

end RemoteCall.Yaml
