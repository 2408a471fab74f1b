import RemoteCall.Proofs.Reply.Contract
import RemoteCall.Proofs.Request

/-!
What is read back of a reply: the output, wherever among the attachments the answer stands, and the
attachments in their order.
-/

namespace RemoteCall.Reply

open Multipart (FormPart TypeOnLine quote received)

/-- A file as it is sent in a reply, in the field of a number. -/
def filePart (file : Nat × Attachment) : FormPart :=
  .ofFile ("file_" ++ Nat.repr file.1) file.2.name file.2.type file.2.data

/-- What a file is received as: quotes and ends of lines in its name are replaced, and its type is
trimmed. -/
def arrived (file : Nat × Attachment) : Attachment where
  data := file.2.data
  name := String.ofList (quote file.2.name)
  type := String.ofList (Text.trim file.2.type.toList)

/-- The answer of a successful operation. -/
def answer (output : Json) (operation : String) : Entries Json :=
  [("operation_id", .string operation), ("output", output)]

def answerPart (field : String) (output : Json) (operation : String) : FormPart :=
  .text field (Json.object (answer output operation)).text

/-- A file that can be sent: it has a name, and its type is one line. -/
structure Sendable (a : Attachment) : Prop where
  named : a.name ≠ ""
  onLine : ¬ Text.lineEnd <:+: a.type.toList

variable {output : Json} {before after : List (Nat × Attachment)}

theorem typeOnLine_filePart {file : Nat × Attachment} (h : Sendable file.2) :
    TypeOnLine (filePart file) := by
  intro filename type hf
  cases hf
  exact h.onLine

theorem isAttachment_filePart {file : Nat × Attachment} (h : Sendable file.2) :
    IsAttachment (received (filePart file)) (arrived file) :=
  isAttachment_received (p := filePart file) rfl (Stream.not_suffix_quote_fileName file.1) h.named

theorem parseBytes_answer (hw : Json.Whole output) (ho : Json.Ordered output)
    (hn : output.depth < Json.depthLimit) (operation : String) :
    Json.parseBytes (Text.Utf8.bytes (Json.object (answer output operation)).text) =
      .ok (.object (answer output operation)) := by
  apply parseBytes_text
  · simpa [answer] using hw
  · have hlt : "operation_id" < "output" := by decide
    exact .object (List.pairwise_pair.2 hlt) (by simpa [answer] using ho)
  · simpa [answer, Json.depth, Json.entriesDepth] using Nat.succ_le_of_lt hn

/-- The answer is found at its place among the files, which are all attachments. -/
theorem holds_received {field operation : String} (hb : Json.parseBytes (Text.Utf8.bytes
      (Json.object (answer output operation)).text) = .ok (.object (answer output operation)))
    (h : ∀ file ∈ before ++ after, Sendable file.2) :
    Holds ((before.map filePart ++ answerPart field output operation :: after.map filePart).map
      received) (answer output operation) ((before ++ after).map arrived) := by
  have hf : ∀ file, isAnswer (received (filePart file)) = false := fun file =>
    isAnswer_received (filePart file)
  have ha : isAnswer (received (answerPart field output operation)) = true :=
    isAnswer_received (answerPart field output operation)
  have hs : List.Forall₂ IsAttachment ((before ++ after).map (received ∘ filePart))
      ((before ++ after).map arrived) := by
    rw [List.forall₂_map_left_iff, List.forall₂_map_right_iff, List.forall₂_same]
    exact fun file hm => isAttachment_filePart (h file hm)
  have hbody : (received (answerPart field output operation)).body =
      Text.Utf8.bytes (Json.object (answer output operation)).text := by
    rw [received, answerPart, FormPart.text]
  refine ⟨⟨received (answerPart field output operation), ?_, hbody ▸ hb⟩, ?_⟩
  · simp [List.filter_map, Function.comp_def, hf, ha]
  · simpa [List.filter_map, Function.comp_def, hf, ha] using hs

/-- A reply reads back as its output and its files in their order, whatever its status and wherever
among the files the answer stands. -/
theorem ofResponse_reads_reply (hw : Json.Whole output) (ho : Json.Ordered output)
    (hn : output.depth < Json.depthLimit) (h : ∀ file ∈ before ++ after, Sendable file.2)
    (field operation : String) (status stamp count : Nat) :
    ofResponse (carrying status stamp count
        (before.map filePart ++ answerPart field output operation :: after.map filePart)) =
      .ok ⟨output, (before ++ after).map arrived⟩ := by
  have ht :
    ∀ p ∈ before.map filePart ++ answerPart field output operation :: after.map filePart,
      TypeOnLine p := by
    simp only [List.mem_append, List.mem_cons, List.mem_map] at h ⊢
    rintro p (⟨file, hm, rfl⟩ | rfl | ⟨file, hm, rfl⟩)
    · exact typeOnLine_filePart (h file (.inl hm))
    · exact fun _ _ hf => nomatch hf
    · exact typeOnLine_filePart (h file (.inr hm))
  have hh : Holds ((before.map filePart ++ answerPart field output operation ::
      after.map filePart).map received) (answer output operation) ((before ++ after).map arrived) :=
    holds_received (parseBytes_answer hw ho hn operation) h
  exact ofResponse_of_keeps (keeps_carrying status stamp count ht hh (.missing rfl))

/-- A file whose name and content look like parts of a form. -/
def tricky : Attachment := ⟨[13, 10, 45, 45, 0], "a\"; filename=\"b\n", " text/plain\t"⟩

theorem ofResponse_reads_reply_tricky :
    Json.Whole (.array [.null, .string "\""]) ∧ Json.Ordered (.array [.null, .string "\""]) ∧
      (Json.array [.null, .string "\""]).depth < Json.depthLimit ∧
      (∀ file ∈ [(7, tricky)] ++ [(0, tricky)], Sendable file.2) ∧
      ofResponse (carrying 404 1 0 ([(7, tricky)].map filePart ++
          answerPart "data" (.array [.null, .string "\""]) "op" :: [(0, tricky)].map filePart)) =
        .ok ⟨.array [.null, .string "\""],
          [⟨[13, 10, 45, 45, 0], "a%22; filename=%22b ", "text/plain"⟩,
            ⟨[13, 10, 45, 45, 0], "a%22; filename=%22b ", "text/plain"⟩]⟩ := by
  have hs : Sendable tricky :=
    ⟨by decide, Text.not_lineEnd_infix_of_not_mem (by decide)⟩
  have hw : Json.Whole (.array [.null, .string "\""]) := by simp
  have ho : Json.Ordered (.array [.null, .string "\""]) := by simp
  have hn : (Json.array [.null, .string "\""]).depth < Json.depthLimit := by decide
  have hf : ∀ file ∈ [(7, tricky)] ++ [(0, tricky)], Sendable file.2 := by simpa using hs
  have ha : ∀ n, arrived (n, tricky) =
      ⟨[13, 10, 45, 45, 0], "a%22; filename=%22b ", "text/plain"⟩ := fun n => by
    change arrived (0, tricky) = _
    decide
  have hr := ofResponse_reads_reply hw ho hn hf "data" "op" 404 1 0
  simp only [List.cons_append, List.nil_append, List.map_cons, List.map_nil, ha] at hr
  exact ⟨hw, ho, hn, hf, hr⟩

end RemoteCall.Reply
