import RemoteCall.Envelope
import RemoteCall.Proofs.Json.RoundTrip
import RemoteCall.Proofs.Multipart.Disposition
import RemoteCall.Proofs.Shape.Written

/-!
What is read back of a request: the envelope of the call from the first part of its form, and the
bytes of each stream from the part of that number.
-/

namespace RemoteCall

open Json (Drafts Whole)

/-! ### Envelopes -/

/-- The envelope that a text in bytes says, where it says one. -/
def Envelope.ofBytes? (bs : List UInt8) : Option Envelope := do
  match Envelope.shape.parse (← Text.Utf8.decode? bs) with
  | .ok d => Envelope.ofDatum? d
  | .error _ => none

theorem drafter_present {f : Drafter} {depth : Nat} {d : Json.Draft} {x : Datum} (hd : d ≠ .null)
    (h : f depth d = .ok x) : Drafter.option f depth d = .ok (.present x) := by
  rw [Drafter.option, h]
  · rfl
  · exact hd

namespace Meta

theorem drafter_object {token exam : Json.Draft} {depth : Nat} {t : String} {x : Datum}
    (ht : Drafter.scalar "a string" Decoder.text depth token = .ok (.text t))
    (hx : Drafter.option (Drafter.scalar "a string" Decoder.text) depth exam = .ok x)
    (source source' : List Char) :
    shape.drafter (depth + 1)
        (.object [(⟨.ok "token", source⟩, token), (⟨.ok "exam", source'⟩, exam)] none) =
      .ok (.record [("token", .text t), ("exam", x)]) := by
  simp [shape, Field.required, Shape.drafter, Shape.drafterSlots, Drafter.record, Drafter.given,
    Drafter.slot?, Drafter.complete, Drafter.stopped, ht, hx, bind, Except.bind, pure, Except.pure,
    Entries.get?]

theorem drafter_toJson {m : Meta} {d : Json.Draft} (h : Drafts m.toJson d) (depth : Nat) :
    shape.drafter (depth + 1) d = .ok m.toDatum := by
  obtain ⟨token, exam⟩ := m
  cases h with
  | object h =>
    cases h with
    | cons ht h =>
      cases h with
      | cons hx h =>
        cases h
        apply drafter_object (Drafter.reads_text _ depth _ ht)
        cases exam with
        | none =>
          cases hx
          rfl
        | some exam =>
          apply drafter_present _ (Drafter.reads_text _ depth _ hx)
          rintro rfl
          cases hx

end Meta

namespace Envelope

theorem ofDatum?_toDatum (e : Envelope) : ofDatum? e.toDatum = some e := by
  obtain ⟨func, input, session⟩ := e
  cases session with
  | none => rfl
  | some m =>
    obtain ⟨token, exam⟩ := m
    cases exam <;> rfl

/-- The envelope of a call with whole numbers only, which the reader can follow to its end. -/
structure Legible (e : Envelope) : Prop where
  whole : Whole e.input
  ordered : Json.Ordered e.input
  depth : e.input.depth ≤ 126

/-- What is read of the text of an envelope. Its input may be nested too deep, or have fractions
that are read as others; function and session are always read as they are. -/
def reread (e : Envelope) : Option Envelope :=
  match e.input.reread 126 with
  | .ok input => some { e with input }
  | .error _ => none

theorem reread_of_legible {e : Envelope} (h : e.Legible) : e.reread = some e := by
  rw [reread, h.whole.reread_eq h.ordered h.depth]

theorem drafter_object {func input session : Json.Draft} {depth : Nat} {f : String} {x : Datum}
    (hf : Drafter.scalar "a string" Decoder.text depth func = .ok (.text f))
    (hx : Drafter.option Meta.shape.drafter depth session = .ok x)
    (source source' source'' : List Char) :
    shape.drafter (depth + 1)
        (.object [(⟨.ok "func", source⟩, func), (⟨.ok "input", source'⟩, input),
          (⟨.ok "meta", source''⟩, session)] none) =
      match input.value depth with
      | .ok v => .ok (.record [("func", .text f), ("input", .any v), ("meta", x)])
      | .error flaw => .error (.flaw flaw) := by
  cases hv : Json.Draft.value depth input with
  | error flaw =>
    simp [shape, Field.required, Shape.drafter, Shape.drafterSlots, Drafter.record, Drafter.given,
      Drafter.slot?, Drafter.any, Drafter.flaw, hf, hv, bind, Except.bind]
  | ok v =>
    simp [shape, Field.required, Shape.drafter, Shape.drafterSlots, Drafter.record, Drafter.given,
      Drafter.slot?, Drafter.complete, Drafter.stopped, Drafter.any, hf, hv, hx, bind, Except.bind,
      pure, Except.pure, Entries.get?]

theorem drafter_toJson {e : Envelope} {d : Json.Draft} (hd : Drafts e.toJson d) :
    shape.drafter Json.depthLimit d =
      match e.input.reread 126 with
      | .ok input => .ok { e with input }.toDatum
      | .error flaw => .error (.flaw flaw) := by
  obtain ⟨func, input, session⟩ := e
  cases hd with
  | object hd =>
    cases hd with
    | cons hf hd =>
      cases hd with
      | cons hi hd =>
        cases hd with
        | cons hm hd =>
          cases hd
          rw [← hi.value_eq_reread 126]
          cases session with
          | none =>
            cases hm
            exact drafter_object (Drafter.reads_text _ 126 _ hf) rfl _ _ _
          | some m =>
            refine drafter_object (Drafter.reads_text _ 126 _ hf) (drafter_present ?_ ?_) _ _ _
            · rintro rfl
              cases hm
            · exact Meta.drafter_toJson hm 125

theorem ofBytes?_text (e : Envelope) : ofBytes? (Text.Utf8.bytes e.toJson.text) = e.reread := by
  obtain ⟨d, hr, hd⟩ := e.toJson.exists_readText
  rw [ofBytes?, Text.Utf8.bytes, Json.text, String.toList_ofList, Text.Utf8.decode?_encode, reread]
  simp only [Option.bind_some, Shape.parse, hr, bind, Except.bind, drafter_toJson hd]
  cases e.input.reread 126 with
  | error flaw => rfl
  | ok input => exact ofDatum?_toDatum { e with input }

end Envelope

/-! ### Parts of requests -/

open Multipart (FormPart Part TypeOnLine encodeForm quote received)

structure IsData (e : Envelope) (p : Part) : Prop where
  field : p.fieldName? = some "data"
  untyped : p.header? "content-type" = none
  body : Envelope.ofBytes? p.body = some e

structure IsFile (n : Nat) (bs : List UInt8) (p : Part) : Prop where
  field : p.fieldName? = some ("file_" ++ Nat.repr n)
  filename : ∃ disposition, p.header? "content-disposition" = some disposition ∧
    Multipart.filename disposition.toList = .ok ("file_" ++ Nat.repr n).toList
  type : p.header? "content-type" = some "application/octet-stream"
  body : p.body = bs

/-- A part with the text of an envelope, whatever is read of it. -/
structure Tells (e : Envelope) (p : Part) : Prop where
  field : p.fieldName? = some "data"
  untyped : p.header? "content-type" = none
  body : p.body = Text.Utf8.bytes e.toJson.text

theorem tells_formPart (e : Envelope) : Tells e (received e.formPart) := by
  have hs : ';' ∉ Envelope.field.toList := by decide
  have hp : Multipart.Plain Envelope.field := by
    have hv : Envelope.field.toList.all fun c => c ≠ '"' ∧ c ≠ '\r' ∧ c ≠ '\n' := by
      decide
    simpa [Multipart.Plain] using hv
  refine ⟨?_, ?_, ?_⟩
  · exact Multipart.fieldName?_of_plain e.formPart hs hp
  · exact Multipart.header?_type e.formPart
  · simp only [received, Envelope.formPart, FormPart.text]

theorem Tells.reread {e : Envelope} {p : Part} (h : Tells e p) :
    Envelope.ofBytes? p.body = e.reread := by
  rw [h.body, Envelope.ofBytes?_text]

theorem Tells.isData {e : Envelope} {p : Part} (h : Tells e p) (hl : e.Legible) : IsData e p where
  field := h.field
  untyped := h.untyped
  body := by rw [h.reread, Envelope.reread_of_legible hl]

namespace Stream

theorem fileName_eq (n : Nat) : fileName n = "file_" ++ Nat.repr n :=
  rfl

theorem toList_fileName (n : Nat) :
    (fileName n).toList = "file_".toList ++ Numeric.decimalDigits n := by
  rw [fileName, String.toList_append]
  exact congrArg ("file_".toList ++ ·) String.toList_ofList

theorem not_mem_fileName (n : Nat) {c : Char} (hc : c ∉ "file_".toList)
    (hd : Numeric.isDigit c = false) : c ∉ (fileName n).toList := by
  intro h
  rw [toList_fileName, List.mem_append] at h
  cases h with
  | inl h => exact hc h
  | inr h => cases hd.symm.trans (Numeric.isDigit_of_mem_decimalDigits h)

theorem plain_fileName (n : Nat) : Multipart.Plain (fileName n) := by
  intro c hc
  refine ⟨?_, ?_, ?_⟩
  · rintro rfl
    exact not_mem_fileName n (by decide) (by decide) hc
  · rintro rfl
    exact not_mem_fileName n (by decide) (by decide) hc
  · rintro rfl
    exact not_mem_fileName n (by decide) (by decide) hc

/-- The field of a stream with the given number. -/
def formPart (n : Nat) (s : Stream) : FormPart :=
  .ofFile ("file_" ++ Nat.repr n) ("file_" ++ Nat.repr n) "application/octet-stream" s.body

theorem not_suffix_quote_fileName (n : Nat) :
    ¬ "filename=".toList <:+ quote ("file_" ++ Nat.repr n) := by
  rw [← fileName_eq, (plain_fileName n).quote_eq]
  exact fun h => not_mem_fileName n (c := '=') (by decide) (by decide) (h.subset (by decide))

theorem filename_formPart (n : Nat) (s : Stream) :
    Multipart.filename (Multipart.disposition (formPart n s)) = .ok (fileName n).toList := by
  have hn : fileName n ≠ "" := by
    intro he
    have hl := toList_fileName n
    rw [he] at hl
    cases hl
  rw [← (plain_fileName n).quote_eq]
  exact Multipart.filename_disposition (formPart n s) rfl (not_suffix_quote_fileName n) hn

theorem isFile_formPart (n : Nat) (s : Stream) : IsFile n s.body (received (formPart n s)) where
  field := by
    rw [← fileName_eq]
    exact Multipart.fieldName?_of_plain (formPart n s)
      (not_mem_fileName n (by decide) (by decide)) (plain_fileName n)
  filename := ⟨_, Multipart.header?_disposition (formPart n s), by
    rw [String.toList_ofList, ← fileName_eq]
    exact filename_formPart n s⟩
  type := by
    have ht : String.ofList (Text.trim type.toList) = type := by
      have hv : Text.trim type.toList = type.toList := by decide
      rw [hv, String.ofList_toList]
    exact (Multipart.header?_type (formPart n s)).trans (congrArg some ht)
  body := rfl

def files (n : Nat) (streams : List Stream) : List FormPart :=
  streams.mapIdx fun k s => formPart (n + k) s

theorem files_cons (n : Nat) (s : Stream) (ss : List Stream) :
    files n (s :: ss) = formPart n s :: files (n + 1) ss := by
  rw [files, List.mapIdx_cons, files]
  simp only [Nat.add_zero, Nat.add_assoc, Nat.add_comm 1]

theorem formParts_of_read {streams : List Stream} (h : ∀ s ∈ streams, s.fault = none)
    (n : Nat) : formParts n streams = .ok (files n streams) := by
  induction streams generalizing n with
  | nil => rfl
  | cons s ss ih =>
    have hs : s.read = .ok s.body := by rw [read, h s List.mem_cons_self]
    have ht := ih (fun t ht => h t (List.mem_cons_of_mem s ht)) (n + 1)
    rw [formParts, hs, ht, files_cons]
    rfl

theorem formParts_of_fault {streams : List Stream} {message : String}
    (h : streams.findSome? fault = some message) (n : Nat) :
    formParts n streams = .error (.io message) := by
  induction streams generalizing n with
  | nil => cases h
  | cons s ss ih =>
    rw [List.findSome?_cons] at h
    cases hf : s.fault with
    | some m =>
      rw [hf] at h
      cases h
      rw [formParts, read, hf]
      rfl
    | none =>
      rw [hf] at h
      have hs : s.read = .ok s.body := by rw [read, hf]
      rw [formParts, hs, ih h (n + 1)]
      rfl

theorem typeOnLine_formPart (n : Nat) (s : Stream) : TypeOnLine (formPart n s) := by
  intro filename type hf
  cases hf
  exact Text.not_lineEnd_infix_of_not_mem (by decide)

end Stream

/-! ### Requests -/

/-- A form that says a call: the envelope in front, and behind it each stream in its place. -/
def Carries (form : Multipart.Form) (e : Envelope) (streams : List Stream) : Prop :=
  ∃ data files, Multipart.decode form.contentType.toList form.body = .ok (data :: files) ∧
    IsData e data ∧ files.length = streams.length ∧
    ∀ k s, streams[k]? = some s → ∃ p, files[k]? = some p ∧ IsFile k s.body p

/-- A form with the text of an envelope in front, and behind it each stream in its place. -/
def Sends (form : Multipart.Form) (e : Envelope) (streams : List Stream) : Prop :=
  ∃ data, Multipart.decode form.contentType.toList form.body =
    .ok (data :: (Stream.files 0 streams).map received) ∧ Tells e data

theorem sends_encodeForm (e : Envelope) (streams : List Stream) (stamp count : Nat) :
    Sends (encodeForm stamp count (e.formPart :: Stream.files 0 streams)).1 e streams := by
  refine ⟨received e.formPart, ?_, tells_formPart e⟩
  apply Multipart.decode_encodeForm
  intro p hp
  cases List.mem_cons.1 hp with
  | inl hp =>
    intro filename type hf
    rw [hp] at hf
    cases hf
  | inr hp =>
    obtain ⟨k, hk, rfl⟩ := List.mem_mapIdx.1 hp
    exact Stream.typeOnLine_formPart _ _

theorem Sends.carries {form : Multipart.Form} {e : Envelope} {streams : List Stream}
    (h : Sends form e streams) (hl : e.Legible) : Carries form e streams := by
  obtain ⟨data, hd, ht⟩ := h
  refine ⟨data, (Stream.files 0 streams).map received, hd, ht.isData hl, ?_, ?_⟩
  · simp [Stream.files]
  · intro k s hk
    refine ⟨received (Stream.formPart k s), ?_, Stream.isFile_formPart k s⟩
    simp [Stream.files, hk]

theorem carries_encodeForm {e : Envelope} (h : e.Legible) (streams : List Stream)
    (stamp count : Nat) :
    Carries (encodeForm stamp count (e.formPart :: Stream.files 0 streams)).1 e streams :=
  (sends_encodeForm e streams stamp count).carries h

/-- What is read of a form: the envelope in front, where it can be read, and the files behind. -/
def Multipart.Form.said? (form : Form) : Option (Envelope × List Part) :=
  match decode form.contentType.toList form.body with
  | .ok (data :: files) => (Envelope.ofBytes? data.body).map fun e => (e, files)
  | _ => none

theorem Sends.said?_eq {form : Multipart.Form} {e : Envelope} {streams : List Stream}
    (h : Sends form e streams) :
    form.said? = e.reread.map fun e => (e, (Stream.files 0 streams).map received) := by
  obtain ⟨data, hd, ht⟩ := h
  rw [Multipart.Form.said?, hd]
  simp only [ht.reread]

theorem buildRequest_of_read {streams : List Stream} (h : ∀ s ∈ streams, s.fault = none)
    (e : Envelope) (stamp count : Nat) :
    buildRequest stamp count e streams =
      .ok (encodeForm stamp count (e.formPart :: Stream.files 0 streams)) := by
  rw [buildRequest, requestParts, Stream.formParts_of_read h]
  rfl

theorem buildRequest_of_fault {streams : List Stream} {message : String}
    (h : streams.findSome? Stream.fault = some message) (e : Envelope) (stamp count : Nat) :
    buildRequest stamp count e streams = .error (.io message) := by
  rw [buildRequest, requestParts, Stream.formParts_of_fault h]
  rfl

/-- A request says the call that it was made for, or the first stream that cannot be read is what
comes of it. -/
theorem request_carries_call (stamp count : Nat) (e : Envelope) (streams : List Stream) :
    (e.Legible → (∀ s ∈ streams, s.fault = none) →
      ∃ form next, buildRequest stamp count e streams = .ok (form, next) ∧
        Carries form e streams) ∧
    ∀ message, streams.findSome? Stream.fault = some message →
      buildRequest stamp count e streams = .error (.io message) :=
  ⟨fun h hs => ⟨_, _, buildRequest_of_read hs e stamp count,
    carries_encodeForm h streams stamp count⟩,
    fun _ hm => buildRequest_of_fault hm e stamp count⟩

/-- A call with a nested input and a session of an exam. -/
def nestedCall : Envelope :=
  ⟨"f\n", .object [("a", .array [.null, .integer ⟨-1, by decide⟩]), ("b", .string "\"")],
    some ⟨"t", some "x"⟩⟩

theorem request_carries_nestedCall :
    nestedCall.Legible ∧
      (∀ s ∈ [Stream.ofBytes [13, 10, 45, 45], .ofBytes []], s.fault = none) ∧
      (∃ form next, buildRequest 1 0 nestedCall [.ofBytes [13, 10, 45, 45], .ofBytes []] =
        .ok (form, next) ∧ Carries form nestedCall [.ofBytes [13, 10, 45, 45], .ofBytes []]) ∧
      [Stream.ofBytes [], ⟨[1], some "gone"⟩].findSome? Stream.fault = some "gone" ∧
      buildRequest 1 0 nestedCall [.ofBytes [], ⟨[1], some "gone"⟩] = .error (.io "gone") := by
  have hl : nestedCall.Legible := by
    refine ⟨by simp [nestedCall, Json.integer], ?_, by decide⟩
    apply Json.Ordered.object
    · exact List.pairwise_pair.2 (by decide)
    · simp [Json.integer]
  have hs : ∀ s ∈ [Stream.ofBytes [13, 10, 45, 45], .ofBytes []], s.fault = none := by
    simp [Stream.ofBytes]
  have hf : [Stream.ofBytes [], ⟨[1], some "gone"⟩].findSome? Stream.fault = some "gone" := rfl
  exact ⟨hl, hs, (request_carries_call 1 0 nestedCall _).1 hl hs, hf,
    (request_carries_call 1 0 nestedCall _).2 _ hf⟩

end RemoteCall
