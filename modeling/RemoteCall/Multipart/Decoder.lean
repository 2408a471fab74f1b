import RemoteCall.Multipart.Form
import RemoteCall.Multipart.Part
import RemoteCall.Text.Utf8

/-!
The parts of a multipart body. What stands before the first delimiter and after the closing one
does not count, nor does the rest of the line of a delimiter.
-/

namespace RemoteCall.Multipart

open Text (afterStart? crlfLines cut? splitAt? trim)

theorem length_of_afterStart? {α : Type} [DecidableEq α] {needle xs after : List α}
    (h : Text.afterStart? needle xs = some after) :
    xs.length = needle.length + after.length := by
  induction needle generalizing xs with
  | nil => simp_all [Text.afterStart?]
  | cons n needle ih =>
    cases xs with
    | nil => simp [Text.afterStart?] at h
    | cons x xs =>
      simp only [Text.afterStart?] at h
      split at h
      · have := ih h
        simp only [List.length_cons]
        omega
      · simp at h

theorem length_of_cut? {α : Type} [DecidableEq α] {needle xs before after : List α}
    (h : cut? needle xs = some (before, after)) :
    xs.length = before.length + needle.length + after.length := by
  induction xs generalizing before with
  | nil =>
    simp only [cut?] at h
    split at h <;> simp_all
  | cons x xs ih =>
    simp only [cut?] at h
    split at h
    · next hs =>
      have := length_of_afterStart? hs
      simp_all
    · simp only [Option.map_eq_some_iff, Prod.exists, Prod.mk.injEq] at h
      obtain ⟨b, a, hb, rfl, rfl⟩ := h
      have := ih hb
      simp only [List.length_cons]
      omega

def headerOf (line : List Char) : Except Breach (String × String) :=
  match splitAt? ':' line with
  | some (name, value) => .ok (String.ofList (trim name), String.ofList (trim value))
  | none => .error (.malformedHeader (String.ofList line))

/-- The headers in a block of lines, of which blank ones are passed over. -/
def headersOf (block : List UInt8) : Except Breach (List (String × String)) :=
  ((crlfLines (Text.Utf8.decodeLossy block)).filter fun line => trim line ≠ []).mapM headerOf

/-- The block of headers and the content of a part; a part that starts with an empty line has no
headers. -/
def splitPart (raw : List UInt8) : Except Breach (List UInt8 × List UInt8) :=
  match afterStart? crlf raw with
  | some body => .ok ([], body)
  | none =>
    match cut? (crlf ++ crlf) raw with
    | some (block, body) => .ok (block, body)
    | none => .error .noHeaderEnd

def partOf (raw : List UInt8) : Except Breach Part := do
  let (block, body) ← splitPart raw
  return ⟨← headersOf block, body⟩

def partsFrom (delimiter bs : List UInt8) : Except Breach (List Part) :=
  if (afterStart? dashes bs).isSome then .ok []
  else
    match _h : cut? crlf bs with
    | none => .error .truncated
    | some (_, rest) =>
      match _k : cut? (crlf ++ delimiter) rest with
      | none => .error .noClosing
      | some (raw, after) => do
        let part ← partOf raw
        let parts ← partsFrom delimiter after
        return part :: parts
termination_by bs.length
decreasing_by
  have := length_of_cut? _h
  have := length_of_cut? _k
  simp only [crlf, List.length_append, List.length_cons, List.length_nil] at *
  omega

def decode (ct : List Char) (body : List UInt8) : Except Breach (List Part) :=
  if isMultipart ct then do
    let delimiter := dashes ++ Text.Utf8.encode (← boundary ct)
    match cut? delimiter body with
    | none => .error .noOpening
    | some (_, after) => partsFrom delimiter after
  else .error .notMultipart

end RemoteCall.Multipart
