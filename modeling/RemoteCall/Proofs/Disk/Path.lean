import RemoteCall.Disk.Path
import RemoteCall.Proofs.Text.Pieces

/-!
Names on paths. Main statement: the path of a plain name inside a folder has the names of the folder
and then this one.
-/

namespace RemoteCall.Path

open Text (fields)

/-- A name that leads from a folder to something in it, and nowhere else. -/
structure Plain (name : List Char) : Prop where
  ne_nil : name ≠ []
  no_slash : '/' ∉ name
  ne_dot : name ≠ ['.']
  ne_dots : name ≠ ['.', '.']

instance (name : List Char) : Decidable (Plain name) :=
  decidable_of_iff (name ≠ [] ∧ '/' ∉ name ∧ name ≠ ['.'] ∧ name ≠ ['.', '.'])
    ⟨fun ⟨h, h', h'', h'''⟩ => ⟨h, h', h'', h'''⟩,
      fun ⟨h, h', h'', h'''⟩ => ⟨h, h', h'', h'''⟩⟩

theorem mem_names_iff {path name : List Char} :
    name ∈ names path ↔ name ∈ fields '/' path ∧ name ≠ [] ∧ name ≠ ['.'] := by
  rw [names, List.mem_filter, decide_eq_true_iff]

theorem plain_of_fileName? {path name : List Char} (h : fileName? path = some name) :
    Plain name := by
  rw [fileName?, Option.filter_eq_some_iff, decide_eq_true_iff] at h
  obtain ⟨hl, hd⟩ := h
  obtain ⟨hf, hn, hd'⟩ := mem_names_iff.1 (List.mem_of_getLast? hl)
  exact ⟨hn, Text.not_mem_of_mem_fields hf, hd', hd⟩

variable {name : List Char} (h : Plain name)
include h

theorem Plain.names_eq : names name = [name] := by
  rw [names, Text.fields_of_not_mem h.no_slash]
  exact List.filter_cons_of_pos (decide_eq_true ⟨h.ne_nil, h.ne_dot⟩)

theorem Plain.fileName?_eq : fileName? name = some name := by
  rw [fileName?, h.names_eq]
  exact Option.filter_eq_some_iff.2 ⟨rfl, decide_eq_true h.ne_dots⟩

theorem Plain.isAbsolute_eq : isAbsolute name = false := by
  refine decide_eq_false fun hs => h.no_slash ?_
  exact List.mem_of_mem_head? hs

/-- A plain name stands behind the pieces of its folder. Between them is nothing but slashes. -/
theorem Plain.exists_fields_join (folder : List Char) :
    ∃ gap, fields '/' (join folder name) = gap ++ [name] ∧
      gap.filter (· ≠ []) = (fields '/' folder).filter (· ≠ []) := by
  have hn := Text.fields_of_not_mem h.no_slash
  rw [join, h.isAbsolute_eq]
  simp only [Bool.false_eq_true, if_false]
  split
  · next hf =>
    rcases hf with rfl | hs
    · exact ⟨[], by rw [List.nil_append, hn]; rfl, rfl⟩
    · obtain ⟨front, rfl⟩ := List.getLast?_eq_some_iff.1 hs
      refine ⟨fields '/' front, ?_, ?_⟩
      · rw [List.append_assoc, List.singleton_append, Text.fields_append_sep, hn]
      · rw [Text.fields_append_sep, List.filter_append]
        exact (List.append_nil _).symm
  · exact ⟨fields '/' folder, by rw [Text.fields_append_sep, hn], rfl⟩

theorem Plain.steps_join (folder : List Char) :
    (fields '/' (join folder name)).filter (· ≠ []) =
      (fields '/' folder).filter (· ≠ []) ++ [name] := by
  obtain ⟨gap, hj, hg⟩ := h.exists_fields_join folder
  rw [hj, List.filter_append, hg]
  exact congrArg _ (List.filter_cons_of_pos (decide_eq_true h.ne_nil))

theorem Plain.names_join (folder : List Char) :
    names (join folder name) = names folder ++ [name] := by
  have hf (path : List Char) :
      names path = ((fields '/' path).filter (· ≠ [])).filter (· ≠ ['.']) := by
    rw [names, List.filter_filter]
    exact List.filter_congr fun piece _ => by simp [Bool.and_comm]
  rw [hf, hf, h.steps_join, List.filter_append]
  exact congrArg _ (List.filter_cons_of_pos (decide_eq_true h.ne_dot))

theorem Plain.isAbsolute_join (folder : List Char) :
    isAbsolute (join folder name) = isAbsolute folder := by
  rw [join, h.isAbsolute_eq]
  simp only [Bool.false_eq_true, if_false]
  cases folder with
  | nil => exact h.isAbsolute_eq
  | cons c folder => split <;> rfl

theorem Plain.join_ne_nil (folder : List Char) : join folder name ≠ [] := by
  intro hj
  have hn := h.names_join folder
  rw [hj] at hn
  exact List.append_ne_nil_of_right_ne_nil _ (List.cons_ne_nil _ _) hn.symm

theorem Plain.getLast?_join (folder : List Char) :
    (join folder name).getLast? ≠ some '/' := by
  have hr (front : List Char) : (front ++ name).getLast? = name.getLast? := by
    rw [List.getLast?_append, List.getLast?_eq_some_getLast h.ne_nil, Option.some_or]
  have hl : (join folder name).getLast? = name.getLast? := by
    rw [join, h.isAbsolute_eq]
    simp only [Bool.false_eq_true, if_false]
    split
    · exact hr folder
    · rw [List.append_cons, hr]
  rw [hl]
  exact fun hs => h.no_slash (List.mem_of_getLast? hs)

end RemoteCall.Path
