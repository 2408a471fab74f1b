import Mathlib.Logic.Function.Iterate
import RemoteCall.Proofs.Multipart.Truncation
import RemoteCall.Proofs.Text.Position

/-!
Decoding by positions. The body stays whole, and a position moves through it from delimiter to
delimiter; every piece is sliced out of the body between two positions. Main statement: this comes
to what the decoder makes of the body, the position moves on with every turn, and no slice is out of
range.
-/

namespace RemoteCall.Multipart

open Text (First Slip find slice)

/-! ### Parts -/

/-- The block of headers and the content of a part, cut out of it at a position. -/
def splitPartAt (raw : List UInt8) : Except Slip (Except Breach (List UInt8 × List UInt8)) :=
  match Text.afterStart? crlf raw with
  | some body => (slice raw 0 0).map fun block => .ok (block, body)
  | none => do
    match ← find raw (crlf ++ crlf) 0 with
    | none => return .error .noHeaderEnd
    | some stop =>
      let block ← slice raw 0 stop
      return .ok (block, ← slice raw (stop + (crlf ++ crlf).length) raw.length)

def partAt (raw : List UInt8) : Except Slip (Except Breach Part) :=
  (splitPartAt raw).map fun pieces => do
    let (block, body) ← pieces
    return ⟨← headersOf block, body⟩

theorem splitPartAt_eq (raw : List UInt8) : splitPartAt raw = .ok (splitPart raw) := by
  rw [splitPartAt, splitPart]
  cases Text.afterStart? crlf raw with
  | some body => simp [Text.slice_from_start, Except.map]
  | none =>
    have hz : raw.drop 0 = raw := rfl
    rcases Text.find_cases (crlf_append_ne_nil crlf) (Nat.zero_le raw.length) with
      ⟨hn, hf⟩ | ⟨block, body, hc, hf⟩
    · rw [hz] at hn
      simp only [hf, bind, Except.bind, Text.cut?_eq_none_iff.2 hn]
      rfl
    · have hl := hc.length_le (Nat.zero_le _)
      have hd := hc.drop_eq
      have hb := Text.slice_of_drop (Nat.zero_le _) (hc.eq.trans (List.append_assoc _ _ _))
      rw [hz] at hc
      rw [Nat.zero_add] at hf hl hd hb
      simp only [hf, bind, Except.bind, hb, Text.slice_to_end hl, hd, Text.cut?_eq_some_iff.2 hc]
      rfl

theorem partAt_eq (raw : List UInt8) : partAt raw = .ok (partOf raw) := by
  rw [partAt, splitPartAt_eq]
  rfl

/-! ### Turns -/

/-- What one turn comes to: the answer, or a part and the position of the delimiter behind it. -/
inductive Turn
  | ended (answer : Except Breach Unit)
  | onward (part : Part) (next : Nat)

/-- One turn, from the position of a delimiter. -/
def turn (delimiter body : List UInt8) (pos : Nat) : Except Slip Turn := do
  let behind := pos + delimiter.length
  if (Text.afterStart? dashes (← slice body behind body.length)).isSome then
    return .ended (.ok ())
  else
    match ← find body crlf behind with
    | none => return .ended (.error .truncated)
    | some lineEnd =>
      let start := lineEnd + crlf.length
      match ← find body (crlf ++ delimiter) start with
      | none => return .ended (.error .noClosing)
      | some stop =>
        match ← partAt (← slice body start stop) with
        | .error breach => return .ended (.error breach)
        | .ok part => return .onward part (stop + crlf.length)

variable {delimiter body : List UInt8} {pos next : Nat} {part : Part}

/-- The positions of a turn that goes on: of the delimiter that it starts from, of the end of that
line, and of the end of the part in front of the next delimiter. -/
structure Advance (delimiter body : List UInt8) (pos next : Nat) : Prop where
  positions : ∃ lineEnd stop, pos + delimiter.length ≤ lineEnd ∧ lineEnd + 2 ≤ stop ∧
    next = stop + 2
  within : next + delimiter.length ≤ body.length

theorem Advance.lt (h : Advance delimiter body pos next) : pos < next := by
  obtain ⟨lineEnd, stop, h₁, h₂, h₃⟩ := h.positions
  omega

/-- What the rest of the body says, by what comes of a turn. -/
inductive Turned (delimiter body : List UInt8) (pos : Nat) : Turn → Prop
  | ended : partsFrom delimiter (body.drop (pos + delimiter.length)) = .ok [] →
    Turned delimiter body pos (.ended (.ok ()))
  | refused {breach : Breach} :
    partsFrom delimiter (body.drop (pos + delimiter.length)) = .error breach →
    Turned delimiter body pos (.ended (.error breach))
  | onward {part : Part} {next : Nat} : Advance delimiter body pos next →
    partsFrom delimiter (body.drop (pos + delimiter.length)) =
      (partsFrom delimiter (body.drop (next + delimiter.length))).map (part :: ·) →
    Turned delimiter body pos (.onward part next)

/-- From a delimiter over the rest of its line and over a part to the next delimiter. -/
theorem advance_of_section {padding rest raw after : List UInt8} {start stop : Nat}
    (h : pos + delimiter.length ≤ body.length)
    (hl : First crlf (body.drop (pos + delimiter.length)) padding rest)
    (hs : start = pos + delimiter.length + padding.length + crlf.length)
    (hr : First (crlf ++ delimiter) (body.drop start) raw after) (hn : stop = start + raw.length) :
    Advance delimiter body pos (stop + crlf.length) ∧
      body.drop (stop + crlf.length + delimiter.length) = after := by
  have hstart : start ≤ body.length := hs ▸ hl.length_le h
  have hstop := hr.length_le hstart
  have hafter := hr.drop_eq
  rw [List.length_append, ← Nat.add_assoc, ← hn] at hstop hafter
  refine
    ⟨⟨⟨pos + delimiter.length + padding.length, stop, Nat.le_add_right _ _, ?_, rfl⟩,
      hstop⟩,
    hafter⟩
  rw [hn, hs]
  exact Nat.le_add_right _ _

/-- A turn from a delimiter within the body never slips. -/
theorem exists_turned (h : pos + delimiter.length ≤ body.length) :
    ∃ t, turn delimiter body pos = .ok t ∧ Turned delimiter body pos t := by
  have hs := Text.slice_to_end h
  -- The cases are those in which the parts are read from the rest behind the delimiter.
  by_cases hd : dashes <+: body.drop (pos + delimiter.length)
  · refine ⟨.ended (.ok ()), ?_, .ended (partsFrom_of_dashes hd)⟩
    simp only [turn, hs, bind, Except.bind, Text.isSome_afterStart?_iff.2 hd]
    rfl
  have hi := mt Text.isSome_afterStart?_iff.1 hd
  rcases Text.find_cases crlf_ne_nil h with ⟨hn, hf⟩ | ⟨padding, rest, hl, hf⟩
  · refine ⟨.ended (.error .truncated), ?_, .refused (partsFrom_of_no_line hd hn)⟩
    simp only [turn, hs, bind, Except.bind, hi, hf]
    rfl
  have hstart := hl.length_le h
  obtain rfl := hl.drop_eq
  rcases Text.find_cases (crlf_append_ne_nil delimiter) hstart with
    ⟨hn, hg⟩ | ⟨raw, after, hr, hg⟩
  · refine ⟨.ended (.error .noClosing), ?_, .refused (partsFrom_of_no_closing hd hl hn)⟩
    simp only [turn, hs, bind, Except.bind, hi, hf, hg]
    rfl
  have hraw := Text.slice_of_drop hstart (hr.eq.trans (List.append_assoc _ _ _))
  have hp := partsFrom_of_section hd hl hr
  cases hq : partOf raw with
  | error breach =>
    refine ⟨.ended (.error breach), ?_, .refused (by rw [hp, hq]; rfl)⟩
    simp only [turn, hs, bind, Except.bind, hi, hf, hg, hraw, partAt_eq, hq]
    rfl
  | ok part =>
    obtain ⟨ha, hafter⟩ := advance_of_section h hl rfl hr rfl
    refine ⟨.onward part _, ?_, .onward ha ?_⟩
    · simp only [turn, hs, bind, Except.bind, hi, hf, hg, hraw, partAt_eq, hq]
      rfl
    · rw [hp, hq, hafter]
      cases partsFrom delimiter after <;> rfl

/-! ### Runs -/

/-- Where decoding stands: at the position of a delimiter, with the parts in front of it, or at its
end. -/
inductive Cursor
  | reading (delimiter : List UInt8) (pos : Nat) (parts : List Part)
  | answered (answer : Except Breach (List Part))
  | slipped (slip : Slip)

namespace Cursor

def start (ct : List Char) (body : List UInt8) : Cursor :=
  if isMultipart ct then
    match boundary ct with
    | .error breach => .answered (.error breach)
    | .ok b =>
      match find body (dashes ++ Text.Utf8.encode b) 0 with
      | .error slip => .slipped slip
      | .ok none => .answered (.error .noOpening)
      | .ok (some pos) => .reading (dashes ++ Text.Utf8.encode b) pos []
  else .answered (.error .notMultipart)

def step (body : List UInt8) : Cursor → Cursor
  | .reading delimiter pos parts =>
    match turn delimiter body pos with
    | .error slip => .slipped slip
    | .ok (.ended (.ok ())) => .answered (.ok parts)
    | .ok (.ended (.error breach)) => .answered (.error breach)
    | .ok (.onward part next) => .reading delimiter next (parts ++ [part])
  | c => c

/-- The cursor stands at a delimiter within the body, and what is said behind that makes the answer
complete; or it has the answer. -/
inductive Sound (body : List UInt8) (answer : Except Breach (List Part)) : Cursor → Prop
  | reading {delimiter : List UInt8} {pos : Nat} {parts : List Part} : delimiter ≠ [] →
    pos + delimiter.length ≤ body.length →
    (partsFrom delimiter (body.drop (pos + delimiter.length))).map (parts ++ ·) = answer →
    Sound body answer (.reading delimiter pos parts)
  | answered {found : Except Breach (List Part)} : found = answer →
    Sound body answer (.answered found)

/-- How many bytes there are from the cursor on. -/
def left (body : List UInt8) : Cursor → Nat
  | .reading _ pos _ => body.length - pos
  | _ => 0

variable {c : Cursor} {answer : Except Breach (List Part)} {parts parts' : List Part}

theorem sound_start (ct : List Char) (body : List UInt8) :
    Sound body (decode ct body) (start ct body) := by
  rw [start]
  by_cases hm : isMultipart ct
  · rw [if_pos hm]
    cases hb : boundary ct with
    | error breach =>
      refine .answered ?_
      rw [decode, if_pos hm, hb]
      rfl
    | ok b =>
      have hz : body.drop 0 = body := rfl
      rcases Text.find_cases (dashes_append_ne_nil (Text.Utf8.encode b))
        (Nat.zero_le body.length) with ⟨hn, hf⟩ | ⟨preamble, after, hc, hf⟩
      · simp only [hf]
        exact .answered (decode_of_no_opening hm hb (hz ▸ hn)).symm
      · simp only [hf]
        refine .reading (dashes_append_ne_nil _) (hc.length_le (Nat.zero_le _)) ?_
        rw [hc.drop_eq, decode_of_opening hm hb (hz ▸ hc)]
        cases partsFrom (dashes ++ Text.Utf8.encode b) after <;> rfl
  · rw [if_neg hm]
    refine .answered ?_
    rw [decode, if_neg hm]

theorem Sound.step (h : Sound body answer c) : Sound body answer (c.step body) := by
  cases h with
  | answered he => exact .answered he
  | @reading delimiter pos parts hn hw ha =>
    obtain ⟨t, ht, hturned⟩ := exists_turned hw
    simp only [Cursor.step, ht]
    cases hturned with
    | ended hp =>
      refine .answered ?_
      rw [← ha, hp]
      exact congrArg Except.ok (List.append_nil parts).symm
    | refused hp =>
      refine .answered ?_
      rw [← ha, hp]
      rfl
    | onward hadv hp =>
      refine .reading hn hadv.within ?_
      rw [← ha, hp]
      cases partsFrom delimiter _ with
      | error breach => rfl
      | ok ps => exact congrArg Except.ok (List.append_assoc _ _ _)

theorem Sound.left_step_lt (h : Sound body answer c) (hl : 0 < c.left body) :
    (c.step body).left body < c.left body := by
  cases h with
  | answered => exact absurd hl (Nat.lt_irrefl 0)
  | @reading delimiter pos parts hn hw ha =>
    obtain ⟨t, ht, hturned⟩ := exists_turned hw
    simp only [Cursor.step, ht]
    cases hturned with
    | ended => exact hl
    | refused => exact hl
    | onward hadv =>
      have := hadv.lt
      have := hadv.within
      simp only [left] at hl ⊢
      omega

theorem Sound.eq_answered (h : Sound body answer c) (hl : c.left body = 0) :
    c = .answered answer := by
  cases h with
  | answered he => rw [he]
  | reading hn hw =>
    have := List.length_pos_iff.2 hn
    simp only [left] at hl
    omega

theorem Sound.iterate (h : Sound body answer c) (n : Nat) :
    Sound body answer ((Cursor.step body)^[n] c) :=
  Function.Iterate.rec (Sound body answer) h (fun _ hc => hc.step) n

theorem Sound.iterate_eq_answered (h : Sound body answer c) {n : Nat} (hl : c.left body ≤ n) :
    (Cursor.step body)^[n] c = .answered answer := by
  induction n generalizing c with
  | zero => exact h.eq_answered (Nat.le_zero.1 hl)
  | succ n ih =>
    rw [Function.iterate_succ_apply]
    apply ih h.step
    rcases Nat.eq_zero_or_pos (c.left body) with hz | hp
    · rw [h.eq_answered hz]
      exact Nat.zero_le n
    · have := h.left_step_lt hp
      omega

theorem left_start_le (ct : List Char) (body : List UInt8) :
    (start ct body).left body ≤ body.length := by
  cases start ct body with
  | reading => exact Nat.sub_le _ _
  | _ => exact Nat.zero_le _

/-- A turn that goes on reads one more part, and leaves the delimiter as it is. -/
theorem advance_of_step {delimiter' : List UInt8} (h : pos + delimiter.length ≤ body.length)
    (hs : step body (.reading delimiter pos parts) = .reading delimiter' next parts') :
    delimiter' = delimiter ∧ Advance delimiter body pos next ∧
      ∃ part, parts' = parts ++ [part] := by
  obtain ⟨t, ht, hturned⟩ := exists_turned h
  simp only [step, ht] at hs
  cases hturned with
  | ended => cases hs
  | refused => cases hs
  | @onward part next hadv =>
    cases hs
    exact ⟨rfl, hadv, part, rfl⟩

end Cursor

/-- Decoding by positions comes to the answer of the decoder, after no more turns than the body has
bytes. It never slips, be it in the body or in a part. A position that it reaches leaves room for
the delimiter there, and every turn that goes on passes an end of line and an end of a part, in this
order and within the body, to a later position. -/
theorem decode_stays_in_range (ct : List Char) (body : List UInt8) :
    (Cursor.step body)^[body.length] (.start ct body) = .answered (decode ct body) ∧
    (∀ n slip, (Cursor.step body)^[n] (.start ct body) ≠ .slipped slip) ∧
    (∀ n delimiter pos parts,
      (Cursor.step body)^[n] (.start ct body) = .reading delimiter pos parts →
      pos + delimiter.length ≤ body.length ∧
      ∀ delimiter' next parts',
        Cursor.step body (.reading delimiter pos parts) = .reading delimiter' next parts' →
        pos < next ∧ Advance delimiter body pos next ∧ delimiter' = delimiter ∧
          ∃ part, parts' = parts ++ [part]) ∧
    ∀ raw, splitPartAt raw = .ok (splitPart raw) := by
  have hs := Cursor.sound_start ct body
  refine ⟨hs.iterate_eq_answered (Cursor.left_start_le ct body), fun n slip he => ?_,
    fun n delimiter pos parts he => ?_, splitPartAt_eq⟩
  · have hn := hs.iterate n
    rw [he] at hn
    cases hn
  · have hn := hs.iterate n
    rw [he] at hn
    cases hn with
    | reading _ hw _ =>
      refine ⟨hw, fun delimiter' next parts' ht => ?_⟩
      obtain ⟨hd, ha, hp⟩ := Cursor.advance_of_step hw ht
      exact ⟨ha.lt, ha, hd, hp⟩

/-- One part without headers and content, between delimiters of dashes alone. -/
def dashedBody : List UInt8 := [45, 45, 45, 13, 10, 13, 10, 13, 10, 45, 45, 45, 45, 45]

theorem decode_stays_in_range_dashed :
    (Cursor.step dashedBody)^[0] (.start "multipart/x; boundary=-".toList dashedBody) =
        .reading [45, 45, 45] 0 [] ∧
      Cursor.step dashedBody (.reading [45, 45, 45] 0 []) =
        .reading [45, 45, 45] 9 [⟨[], []⟩] ∧
      0 < 9 ∧ Advance [45, 45, 45] dashedBody 0 9 ∧
      (Cursor.step dashedBody)^[14] (.start "multipart/x; boundary=-".toList dashedBody) =
        .answered (decode "multipart/x; boundary=-".toList dashedBody) := by
  have hs : (Cursor.step dashedBody)^[0] (.start "multipart/x; boundary=-".toList dashedBody) =
      .reading [45, 45, 45] 0 [] := by
    with_unfolding_all rfl
  have ht : Cursor.step dashedBody (.reading [45, 45, 45] 0 []) =
      .reading [45, 45, 45] 9 [⟨[], []⟩] := by
    rfl
  obtain ⟨ha, -, hr, -⟩ := decode_stays_in_range "multipart/x; boundary=-".toList dashedBody
  obtain ⟨hl, hadv, -, -⟩ := (hr 0 _ _ _ hs).2 _ _ _ ht
  exact ⟨hs, ht, hl, hadv, ha⟩

end RemoteCall.Multipart
