import RemoteCall.Json.Basic

/-! Properties of JSON values: how deep they are nested, which have their entries in order, and
which have no binary fractions in them. -/

namespace RemoteCall.Json

mutual

/-- How deep arrays and objects are nested in a value. -/
def depth : Json → Nat
  | .array items => itemsDepth items + 1
  | .object entries => entriesDepth entries + 1
  | _ => 0

def itemsDepth : List Json → Nat
  | [] => 0
  | v :: vs => max v.depth (itemsDepth vs)

def entriesDepth : List (String × Json) → Nat
  | [] => 0
  | (_, v) :: es => max v.depth (entriesDepth es)

end

/-- The entries of every object in a value stand in the order of their keys. -/
inductive Ordered : Json → Prop
  | null : Ordered .null
  | bool (b : Bool) : Ordered (.bool b)
  | number (n : Number) : Ordered (.number n)
  | string (s : String) : Ordered (.string s)
  | array {items : List Json} : (∀ v ∈ items, Ordered v) → Ordered (.array items)
  | object {entries : List (String × Json)} :
    Entries.Ordered entries → (∀ e ∈ entries, Ordered e.2) → Ordered (.object entries)

/-- All numbers in a value are whole. -/
inductive Whole : Json → Prop
  | null : Whole .null
  | bool (b : Bool) : Whole (.bool b)
  | integer (n : Integer) : Whole (.number (.integer n))
  | string (s : String) : Whole (.string s)
  | array {items : List Json} : (∀ v ∈ items, Whole v) → Whole (.array items)
  | object {entries : List (String × Json)} :
    (∀ e ∈ entries, Whole e.2) → Whole (.object entries)

attribute [simp] Ordered.null Ordered.bool Ordered.number Ordered.string
attribute [simp] Whole.null Whole.bool Whole.integer Whole.string

variable {items : List Json} {entries : List (String × Json)}

@[simp] theorem ordered_array : Ordered (.array items) ↔ ∀ v ∈ items, Ordered v :=
  ⟨fun | .array h => h, .array⟩

@[simp] theorem ordered_object :
    Ordered (.object entries) ↔ Entries.Ordered entries ∧ ∀ e ∈ entries, Ordered e.2 :=
  ⟨fun | .object ho h => ⟨ho, h⟩, fun h => .object h.1 h.2⟩

@[simp] theorem whole_array : Whole (.array items) ↔ ∀ v ∈ items, Whole v :=
  ⟨fun | .array h => h, .array⟩

@[simp] theorem whole_object : Whole (.object entries) ↔ ∀ e ∈ entries, Whole e.2 :=
  ⟨fun | .object h => h, .object⟩

theorem itemsDepth_le_iff {n : Nat} :
    itemsDepth items ≤ n ↔ ∀ v ∈ items, v.depth ≤ n := by
  induction items with
  | nil => simp [itemsDepth]
  | cons v vs ih => rw [itemsDepth, Nat.max_le, ih, List.forall_mem_cons]

theorem entriesDepth_le_iff {n : Nat} :
    entriesDepth entries ≤ n ↔ ∀ e ∈ entries, e.2.depth ≤ n := by
  induction entries with
  | nil => simp [entriesDepth]
  | cons e es ih => rw [entriesDepth, Nat.max_le, ih, List.forall_mem_cons]

/-- What holds of a value as soon as it holds of its items and entries holds of every value. -/
@[elab_as_elim]
theorem induction {motive : Json → Prop} (null : motive .null) (bool : ∀ b, motive (.bool b))
    (number : ∀ n, motive (.number n)) (string : ∀ s, motive (.string s))
    (array : ∀ items, (∀ v ∈ items, motive v) → motive (.array items))
    (object : ∀ entries, (∀ e ∈ entries, motive e.2) → motive (.object entries))
    (v : Json) : motive v :=
  @Json.rec motive (fun vs => ∀ v ∈ vs, motive v) (fun es => ∀ e ∈ es, motive e.2)
    (fun e => motive e.2) null bool number string array object
    (fun _ h => nomatch h) (fun _ _ hv hvs => List.forall_mem_cons.2 ⟨hv, hvs⟩)
    (fun _ h => nomatch h) (fun _ _ he hes => List.forall_mem_cons.2 ⟨he, hes⟩)
      (fun _ _ hv => hv) v

end RemoteCall.Json
