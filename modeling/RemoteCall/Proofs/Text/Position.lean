import RemoteCall.Proofs.Text.Cut

/-!
Cutting a list by positions. Between positions that are out of order, or past the end, nothing
stands, and cutting there is a slip. Main statement: a search from a position finds what is cut off
behind that position.
-/

namespace RemoteCall.Text

variable {α : Type}

/-- Two positions in a list of some length, between which nothing stands. -/
structure Slip where
  start : Nat
  stop : Nat
  length : Nat
  deriving DecidableEq

/-- What stands between two positions. -/
def slice (xs : List α) (start stop : Nat) : Except Slip (List α) :=
  if start ≤ stop ∧ stop ≤ xs.length then .ok ((xs.take stop).drop start)
  else .error ⟨start, stop, xs.length⟩

/-- The runs of `n` elements, at each position where there are that many. -/
def windows (n : Nat) : List α → List (List α)
  | [] => []
  | x :: xs => if n ≤ xs.length + 1 then (x :: xs).take n :: windows n xs else []

/-- The first position, from `start` on, at which `needle` stands. -/
def find [DecidableEq α] (xs needle : List α) (start : Nat) : Except Slip (Option Nat) :=
  if needle = [] ∨ xs.length < start then .ok none
  else (slice xs start xs.length).map fun rest =>
    ((windows needle.length rest).findIdx? (· == needle)).map (· + start)

variable {xs needle before ys after : List α} {start stop : Nat}

theorem slice_eq_ok_iff :
    slice xs start stop = .ok ys ↔
      start ≤ stop ∧ stop ≤ xs.length ∧ (xs.take stop).drop start = ys := by
  rw [slice]
  split
  · next h => simp [h]
  · next h =>
    refine ⟨fun he => ?_, fun he => absurd ⟨he.1, he.2.1⟩ h⟩
    cases he

theorem slice_to_end (h : start ≤ xs.length) : slice xs start xs.length = .ok (xs.drop start) :=
  slice_eq_ok_iff.2 ⟨h, Nat.le_refl _, by rw [List.take_length]⟩

theorem slice_from_start (h : stop ≤ xs.length) : slice xs 0 stop = .ok (xs.take stop) :=
  slice_eq_ok_iff.2 ⟨Nat.zero_le _, h, rfl⟩

/-- What stands in front of the rest behind a position is between that position and the rest. -/
theorem slice_of_drop (hs : start ≤ xs.length) (h : xs.drop start = ys ++ after) :
    slice xs start (start + ys.length) = .ok ys := by
  have hl := congrArg List.length h
  rw [List.length_drop, List.length_append] at hl
  refine slice_eq_ok_iff.2 ⟨Nat.le_add_right _ _, by omega, ?_⟩
  rw [List.drop_take, h, Nat.add_sub_cancel_left, List.take_left]

theorem take_length_eq_iff : xs.take needle.length = needle ↔ needle <+: xs := by
  rw [List.prefix_iff_eq_take, eq_comm]

/-- Behind a place that was found, the list goes on as it does behind what was sought. -/
theorem First.drop_eq (h : First needle (xs.drop start) before after) :
    xs.drop (start + before.length + needle.length) = after := by
  rw [← List.drop_drop, ← List.drop_drop, h.eq, List.append_assoc, List.drop_left,
    List.drop_left]

theorem First.length_le (hs : start ≤ xs.length)
    (h : First needle (xs.drop start) before after) :
    start + before.length + needle.length ≤ xs.length := by
  have hl := congrArg List.length h.eq
  simp only [List.length_drop, List.length_append] at hl
  omega

variable [DecidableEq α]

theorem findIdx?_windows (hn : needle ≠ []) (xs : List α) :
    (windows needle.length xs).findIdx? (· == needle) =
      (cut? needle xs).map fun found => found.1.length := by
  induction xs with
  | nil => simp [windows, cut?, hn]
  | cons x xs ih =>
    rw [windows]
    split
    · next hl =>
      rw [List.findIdx?_cons, ih, cut?]
      cases ha : afterStart? needle (x :: xs) with
      | some after =>
        have hp := take_length_eq_iff.2 (isSome_afterStart?_iff.1 (Option.isSome_of_eq_some ha))
        simp [hp]
      | none =>
        have hp := mt take_length_eq_iff.1 (afterStart?_eq_none_iff.1 ha)
        simp only [beq_iff_eq, hp, if_false, Option.map_map]
        rfl
    · next hl =>
      have hc : cut? needle (x :: xs) = none := cut?_eq_none_iff.2 fun hi => hl hi.length_le
      rw [hc]
      rfl

/-- A search from a position within a list never slips. Either what is sought does not stand behind
that position, or its first place there is found. -/
theorem find_cases (hn : needle ≠ []) (hs : start ≤ xs.length) :
    ¬ needle <:+: xs.drop start ∧ find xs needle start = .ok none ∨
      ∃ before after, First needle (xs.drop start) before after ∧
        find xs needle start = .ok (some (start + before.length)) := by
  have hf : find xs needle start =
      .ok ((cut? needle (xs.drop start)).map fun found => start + found.1.length) := by
    rw [find, if_neg (not_or.2 ⟨hn, Nat.not_lt.2 hs⟩), slice_to_end hs]
    simp only [Except.map, findIdx?_windows hn, Option.map_map]
    cases cut? needle (xs.drop start) with
    | none => rfl
    | some found => simp [Nat.add_comm]
  rw [hf]
  cases hc : cut? needle (xs.drop start) with
  | none => exact .inl ⟨cut?_eq_none_iff.1 hc, rfl⟩
  | some found => exact .inr ⟨found.1, found.2, first_of_cut? hc, rfl⟩

end RemoteCall.Text
