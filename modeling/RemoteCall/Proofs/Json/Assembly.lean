import Mathlib.Data.List.Induction
import Mathlib.Data.List.Nodup
import RemoteCall.Proofs.Json.Order

/-!
Values put together piece by piece. The entries of an object may be put in in any order. Main
statement: what comes of it is the same exactly if the same is held under the same keys.
-/

namespace RemoteCall

namespace Entries

variable {α β : Type}

/-- Under each key stands what was put there last. -/
theorem get?_ofList (es : List (String × α)) (key : String) :
    (ofList es).get? key = Entries.get? es.reverse key := by
  induction es using List.reverseRecOn with
  | nil => rfl
  | append_singleton es e ih =>
    obtain ⟨k, v⟩ := e
    have hp : ofList (es ++ [(k, v)]) = (ofList es).put k v := List.foldl_append
    rw [hp, List.reverse_append, List.reverse_singleton, List.singleton_append, get?]
    split
    · next hk => rw [hk, get?_put_self]
    · next hk => rw [get?_put_of_ne _ _ hk, ih]

theorem get?_mapValues (f : α → β) (es : Entries α) (key : String) :
    (es.mapValues f).get? key = (es.get? key).map f := by
  induction es with
  | nil => rfl
  | cons e es ih =>
    obtain ⟨k, v⟩ := e
    rw [mapValues, List.map_cons, get?, get?]
    split
    · rfl
    · exact ih

/-- Maps that hold the same under each key are the same. -/
theorem Ordered.ext {es fs : Entries α} (he : Ordered es) (hf : Ordered fs)
    (h : ∀ key, es.get? key = fs.get? key) : es = fs := by
  have hm : ∀ e, e ∈ es ↔ e ∈ fs := fun e => by
    rw [← get?_eq_some_iff he, ← get?_eq_some_iff hf, h]
  have hp : es.Perm fs :=
    (List.perm_ext_iff_of_nodup (.of_map Prod.fst he.nodup) (.of_map Prod.fst hf.nodup)).2 hm
  rw [← ofList_eq_self he, ofList_of_perm hf hp]

end Entries

namespace Json

mutual

/-- The value that comes of putting in the entries of each object one after another. -/
def assembled : Json → Json
  | .array items => .array (itemsAssembled items)
  | .object entries => .ofEntries (entriesAssembled entries)
  | v => v

def itemsAssembled : List Json → List Json
  | [] => []
  | v :: vs => v.assembled :: itemsAssembled vs

def entriesAssembled : List (String × Json) → List (String × Json)
  | [] => []
  | (k, v) :: es => (k, v.assembled) :: entriesAssembled es

end

/-- The same value, put together in two ways. Under each key of an object the last that was put
there counts, and fractions are the same only with the same sign. -/
inductive Same : Json → Json → Prop
  | null : Same .null .null
  | bool (b : Bool) : Same (.bool b) (.bool b)
  | number (n : Number) : Same (.number n) (.number n)
  | string (s : String) : Same (.string s) (.string s)
  | array {items items' : List Json} :
    List.Forall₂ Same items items' → Same (.array items) (.array items')
  | object {entries entries' : List (String × Json)} :
    (∀ key, Option.Rel Same (Entries.get? entries.reverse key)
      (Entries.get? entries'.reverse key)) →
      Same (.object entries) (.object entries')

theorem itemsAssembled_eq_map (items : List Json) : itemsAssembled items = items.map assembled := by
  induction items with
  | nil => rfl
  | cons v vs ih => rw [itemsAssembled, ih, List.map_cons]

theorem entriesAssembled_eq_mapValues (entries : List (String × Json)) :
    entriesAssembled entries = Entries.mapValues assembled entries := by
  induction entries with
  | nil => rfl
  | cons e es ih =>
    rw [entriesAssembled, ih]
    rfl

/-- Whatever is put together stands in order. -/
theorem ordered_assembled (v : Json) : v.assembled.Ordered := by
  induction v using Json.induction with
  | null => exact .null
  | bool b => exact .bool b
  | number n => exact .number n
  | string s => exact .string s
  | array items ih =>
    rw [assembled, itemsAssembled_eq_map]
    exact .array (List.forall_mem_map.2 ih)
  | object entries ih =>
    rw [assembled, entriesAssembled_eq_mapValues]
    exact ordered_ofEntries (List.forall_mem_map.2 ih)

theorem assembled_of_ordered {v : Json} (h : v.Ordered) : v.assembled = v := by
  induction h with
  | null | bool | number | string => rfl
  | array _ ih => rw [assembled, itemsAssembled_eq_map, List.map_congr_left ih, List.map_id']
  | @object entries ho _ ih =>
    have hm : ∀ e ∈ entries, (e.1, e.2.assembled) = e := fun e he => Prod.ext rfl (ih e he)
    rw [assembled, entriesAssembled_eq_mapValues, Entries.mapValues, List.map_congr_left hm,
      List.map_id', ofEntries, Entries.ofList_eq_self ho]

/-- A value is put together of its own pieces exactly if it stands in order. -/
theorem assembled_eq_self_iff {v : Json} : v.assembled = v ↔ v.Ordered :=
  ⟨fun h => h ▸ ordered_assembled v, assembled_of_ordered⟩

theorem assembled_array_eq_iff {items items' : List Json} :
    (array items).assembled = (array items').assembled ↔
      List.Forall₂ (fun v w => v.assembled = w.assembled) items items' := by
  rw [assembled, assembled, itemsAssembled_eq_map, itemsAssembled_eq_map, array.injEq,
    ← List.forall₂_eq_eq_eq, List.forall₂_map_left_iff, List.forall₂_map_right_iff]

theorem get?_entriesAssembled (entries : List (String × Json)) (key : String) :
    (Entries.ofList (entriesAssembled entries)).get? key =
      (Entries.get? entries.reverse key).map assembled := by
  rw [Entries.get?_ofList, entriesAssembled_eq_mapValues, Entries.mapValues, ← List.map_reverse]
  exact Entries.get?_mapValues assembled entries.reverse key

theorem mem_of_get?_reverse {entries : List (String × Json)} {key : String} {v : Json}
    (h : Entries.get? entries.reverse key = some v) : (key, v) ∈ entries :=
  List.mem_reverse.1 (Entries.mem_of_get? h)

theorem assembled_object_eq_iff {entries entries' : List (String × Json)} :
    (object entries).assembled = (object entries').assembled ↔
      ∀ key, (Entries.get? entries.reverse key).map assembled =
        (Entries.get? entries'.reverse key).map assembled := by
  simp only [← get?_entriesAssembled]
  constructor
  · intro h key
    rw [Json.object.inj h]
  · intro h
    exact congrArg Json.object
      (Entries.Ordered.ext (Entries.ordered_ofList _) (Entries.ordered_ofList _) h)

variable {v w : Json}

theorem Same.assembled_eq (h : Same v w) : v.assembled = w.assembled := by
  induction v using Json.induction generalizing w with
  | null | bool | number | string =>
    cases h
    rfl
  | array items ih =>
    cases h with
    | array h =>
      exact assembled_array_eq_iff.2
        (((List.forall₂_and_left _ _).2 ⟨ih, h⟩).imp fun _ _ h => h.1 h.2)
  | object entries ih =>
    cases h with
    | @object _ entries' h =>
      refine assembled_object_eq_iff.2 fun key => ?_
      have h := h key
      generalize Entries.get? entries'.reverse key = y at h
      cases hv : Entries.get? entries.reverse key with
      | none =>
        rw [hv] at h
        cases h
        rfl
      | some x =>
        rw [hv] at h
        cases h with
        | some hs => exact congrArg some (ih _ (mem_of_get?_reverse hv) hs)

theorem same_of_assembled_eq (h : v.assembled = w.assembled) : Same v w := by
  induction v using Json.induction generalizing w with
  | null | bool | number | string =>
    cases w <;> cases h
    constructor
  | array items ih =>
    cases w with
    | array items' =>
      have h := assembled_array_eq_iff.1 h
      exact .array (((List.forall₂_and_left _ _).2 ⟨ih, h⟩).imp fun _ _ h => h.1 h.2)
    | _ => cases h
  | object entries ih =>
    cases w with
    | object entries' =>
      refine .object fun key => ?_
      have h := assembled_object_eq_iff.1 h key
      cases hv : Entries.get? entries.reverse key with
      | none =>
        rw [hv] at h
        rw [Option.map_eq_none_iff.1 h.symm]
        exact .none
      | some x =>
        rw [hv] at h
        obtain ⟨y, hy, hs⟩ := Option.map_eq_some_iff.1 h.symm
        rw [hy]
        exact .some (ih _ (mem_of_get?_reverse hv) hs.symm)
    | _ => cases h

/-- What comes of putting two values together is the same exactly if they are. -/
theorem assembled_eq_iff : v.assembled = w.assembled ↔ Same v w :=
  ⟨same_of_assembled_eq, Same.assembled_eq⟩

end Json

end RemoteCall
