import RemoteCall.Proofs.Json.Order
import RemoteCall.Proofs.Json.RoundTrip
import RemoteCall.Proofs.Multipart.Disposition
import RemoteCall.Proofs.Multipart.Filename
import RemoteCall.Proofs.Reply.Descriptor
import RemoteCall.Reply

/-!
The contract that a response has to keep before anything in it is believed, a failure that it
declares included. Main statement: what comes of a response that keeps the contract is its reply or
the failure that it declares, and what comes of any other is a breach.
-/

namespace RemoteCall.Reply

open Multipart (IsMultipartType NamesOneFile Part decode isMultipart
  isMultipart_iff_isMultipartType)
open Outcome (bind_eq_ok_iff)

/-- A part without a content type is an answer, and every other part an attachment. -/
def isAnswer (p : Part) : Bool := (p.header? "content-type").isNone

/-- An attachment, and the part that it comes from. -/
structure IsAttachment (p : Part) (a : Attachment) : Prop where
  type : p.header? "content-type" = some a.type
  name : NamesOneFile ((p.header? "content-disposition").getD "").toList a.name.toList
  data : a.data = p.body

/-- What an answer declares of a failure. -/
inductive Declares (entries : Entries Json) : Option Descriptor → Prop
  | missing : Entries.get? entries "error" = none → Declares entries none
  | null : Entries.get? entries "error" = some .null → Declares entries none
  | failure {v : Json} {d : Descriptor} :
    Entries.get? entries "error" = some v → d.Describes v → Declares entries (some d)

/-- Parts of which one is an answer, an object, and all others are attachments. -/
structure Holds (parts : List Part) (entries : Entries Json) (attachments : List Attachment) :
    Prop where
  answer : ∃ p, parts.filter isAnswer = [p] ∧ Json.parseBytes p.body = .ok (.object entries)
  attachments : List.Forall₂ IsAttachment (parts.filter fun p => !isAnswer p) attachments

/-- A response that keeps the contract: it is multipart, its parts are one answer and attachments,
and what it declares of a failure, if anything, describes one. -/
structure Keeps (r : Response) (entries : Entries Json) (attachments : List Attachment)
    (declared : Option Descriptor) : Prop where
  multipart : IsMultipartType (r.contentType.getD "").toList
  parts : ∃ parts, decode (r.contentType.getD "").toList r.body = .ok parts ∧
    Holds parts entries attachments
  declares : Declares entries declared

/-! ### Parts -/

variable {p : Part} {parts : List Part} {answer out : Option Json} {attachments : List Attachment}

def IsAnswer (p : Part) (v : Json) : Prop := Json.parseBytes p.body = .ok v

theorem isAnswer_iff : isAnswer p = true ↔ p.header? "content-type" = none :=
  Option.isNone_iff_eq_none

theorem collect_of_isAnswer (h : isAnswer p = true) :
    collect answer (p :: parts) = .ok (out, attachments) ↔
      answer = none ∧ ∃ v, IsAnswer p v ∧
        collect (some v) parts = .ok (out, attachments) := by
  have hp := isAnswer_iff.1 h
  cases answer with
  | some v => simp [collect, hp]
  | none =>
    rw [collect, hp]
    cases hv : Json.parseBytes p.body with
    | ok v => simp [IsAnswer, hv]
    | error f => simp [IsAnswer, hv]

theorem collect_of_type {type : String} (h : p.header? "content-type" = some type) :
    collect answer (p :: parts) = (do
      let name ← Multipart.filename ((p.header? "content-disposition").getD "").toList
      let (answer, attachments) ← collect answer parts
      return (answer, ⟨p.body, String.ofList name, type⟩ :: attachments)) := by
  cases answer <;> rw [collect, h]

theorem collect_of_not_isAnswer (h : isAnswer p = false) :
    collect answer (p :: parts) = .ok (out, attachments) ↔
      ∃ a as, IsAttachment p a ∧ collect answer parts = .ok (out, as) ∧
        attachments = a :: as := by
  have hn : p.header? "content-type" ≠ none := fun hn => by simp [isAnswer_iff.2 hn] at h
  obtain ⟨type, ht⟩ := Option.ne_none_iff_exists'.1 hn
  rw [collect_of_type ht]
  simp only [bind_eq_ok_iff, Multipart.filename_eq_ok_iff, Prod.exists]
  constructor
  · rintro ⟨name, hn, o, as, hc, he⟩
    cases he
    exact ⟨⟨p.body, String.ofList name, type⟩, as,
      ⟨ht, by rwa [String.toList_ofList], rfl⟩, hc, rfl⟩
  · rintro ⟨⟨data, name, type'⟩, as, ⟨ht', hn, hd⟩, hc, rfl⟩
    cases ht.symm.trans ht'
    exact ⟨_, hn, out, as, hc, by rw [String.ofList_toList, ← hd]; rfl⟩

/-- Whatever the order of the parts, the attachments stand in it, and of answers, the one before
included, there is at most one. -/
theorem collect_eq_ok_iff : collect answer parts = .ok (out, attachments) ↔
    List.Forall₂ IsAttachment (parts.filter fun p => !isAnswer p) attachments ∧
      ∃ vs, List.Forall₂ IsAnswer (parts.filter isAnswer) vs ∧
        answer.toList ++ vs = out.toList := by
  induction parts generalizing answer attachments with
  | nil =>
    have hs : answer.toList = out.toList ↔ answer = out := by
      cases answer <;> cases out <;> simp
    simp only [collect, List.filter_nil, List.forall₂_nil_left_iff, exists_eq_left,
      List.append_nil, hs, Except.ok.injEq, Prod.mk.injEq]
    exact ⟨fun h => ⟨h.2.symm, h.1⟩, fun h => ⟨h.2, h.1.symm⟩⟩
  | cons p parts ih =>
    cases h : isAnswer p with
    | true =>
      rw [collect_of_isAnswer h]
      simp only [ih, List.filter_cons, h, Bool.not_true, Bool.false_eq_true, if_true, if_false,
        List.forall₂_cons_left_iff]
      constructor
      · rintro ⟨rfl, v, hv, ha, vs, hvs, ho⟩
        exact ⟨ha, _, ⟨v, vs, hv, hvs, rfl⟩, ho⟩
      · rintro ⟨ha, _, ⟨v, vs, hv, hvs, rfl⟩, ho⟩
        have hl := congrArg List.length ho
        cases answer with
        | none => exact ⟨rfl, v, hv, ha, vs, hvs, ho⟩
        | some u => cases out <;> simp at hl
    | false =>
      rw [collect_of_not_isAnswer h]
      simp only [ih, List.filter_cons, h, Bool.not_false, Bool.false_eq_true, if_true, if_false,
        List.forall₂_cons_left_iff]
      constructor
      · rintro ⟨a, as, ha, ⟨has, ho⟩, rfl⟩
        exact ⟨⟨a, as, ha, has, rfl⟩, ho⟩
      · rintro ⟨⟨a, as, ha, has, rfl⟩, ho⟩
        exact ⟨a, as, ha, ⟨has, ho⟩, rfl⟩

/-! ### Responses -/

variable {r : Response} {entries : Entries Json} {declared : Option Descriptor}

theorem collect_none_eq_ok_iff : collect none parts = .ok (some (.object entries), attachments) ↔
    Holds parts entries attachments := by
  rw [collect_eq_ok_iff]
  constructor
  · rintro ⟨ha, vs, hvs, rfl⟩
    obtain ⟨p, ps, hp, hps, he⟩ := List.forall₂_cons_right_iff.1 hvs
    rw [List.forall₂_nil_right_iff.1 hps] at he
    exact ⟨⟨p, he, hp⟩, ha⟩
  · rintro ⟨⟨p, he, hp⟩, ha⟩
    exact ⟨ha, [.object entries], he ▸ .cons hp .nil, rfl⟩

theorem sections_eq_ok_iff : sections r = .ok (entries, attachments) ↔
    IsMultipartType (r.contentType.getD "").toList ∧
      ∃ parts, decode (r.contentType.getD "").toList r.body = .ok parts ∧
        Holds parts entries attachments := by
  simp only [sections, ← collect_none_eq_ok_iff, ← isMultipart_iff_isMultipartType]
  cases hm : isMultipart (r.contentType.getD "").toList with
  | false => simp [bind, Except.bind, throw, throwThe, MonadExceptOf.throw]
  | true =>
    simp only [Bool.not_true, Bool.false_eq_true, if_false, true_and, bind_eq_ok_iff, Prod.exists]
    constructor
    · rintro ⟨parts, hd, answer, as, hc, he⟩
      split at he
      · next heq =>
        cases heq
        cases he
        exact ⟨parts, hd, hc⟩
      · cases he
    · rintro ⟨parts, hd, hc⟩
      exact ⟨parts, hd, _, _, hc, rfl⟩

/-- What an answer declares is read wherever its entries stand in order. -/
theorem declared?_eq_ok_iff (ho : Json.Ordered (.object entries)) :
    declared? entries = .ok declared ↔ Declares entries declared := by
  have hv : ∀ v, Entries.get? entries "error" = some v → Json.Ordered v := fun v h =>
    (Json.ordered_object.1 ho).2 _ ((Entries.get?_eq_some_iff (Json.ordered_object.1 ho).1).1 h)
  rw [declared?]
  split
  · next he =>
    constructor
    · intro h
      cases h
      exact .missing he
    · intro h
      cases h with
      | missing => rfl
      | null h => cases he.symm.trans h
      | failure h => cases he.symm.trans h
  · next he =>
    constructor
    · intro h
      cases h
      exact .null he
    · intro h
      cases h with
      | missing => rfl
      | null => rfl
      | failure h hd =>
        cases he.symm.trans h
        cases hd
  · next v hn he =>
    have hs := @Descriptor.strict_eq_ok_iff v (hv v he)
    constructor
    · intro h
      split at h
      · next d hd =>
        obtain ⟨d, hdesc, rfl⟩ := hs.1 hd
        cases h
        exact .failure he hdesc
      · cases h
    · intro h
      cases h with
      | missing h => cases he.symm.trans h
      | null h => exact absurd (Option.some.inj (he.symm.trans h)) hn
      | failure h hd =>
        cases he.symm.trans h
        rw [hs.2 ⟨_, hd, rfl⟩]
        rfl

theorem ofResponse_of_keeps (h : Keeps r entries attachments declared) :
    ofResponse r = match declared with
      | some d => .error d.failure
      | none => .ok ⟨(Entries.get? entries "output").getD .null, attachments⟩ := by
  obtain ⟨hm, ⟨parts, hd, hp⟩, hdecl⟩ := h
  obtain ⟨p, -, hv⟩ := hp.answer
  have hs : sections r = .ok (entries, attachments) := sections_eq_ok_iff.2 ⟨hm, parts, hd, hp⟩
  have hf : declared? entries = .ok declared :=
    (declared?_eq_ok_iff (Json.ordered_parseBytes hv)).2 hdecl
  simp only [ofResponse, hs, hf, Outcome.mapError_ok, bind, Except.bind]
  cases declared <;> rfl

theorem ofResponse_of_breach (h : ¬ ∃ entries attachments declared,
    Keeps r entries attachments declared) : ∃ b, ofResponse r = .error (.protocol b) := by
  cases hs : sections r with
  | error b =>
    exact ⟨b, by simp only [ofResponse, hs, Outcome.mapError_error, bind, Except.bind]⟩
  | ok found =>
    obtain ⟨entries, attachments⟩ := found
    obtain ⟨hm, parts, hd, hp⟩ := sections_eq_ok_iff.1 hs
    obtain ⟨p, -, hv⟩ := hp.answer
    cases hf : declared? entries with
    | error b =>
      refine ⟨b, ?_⟩
      simp only [ofResponse, hs, hf, Outcome.mapError_ok, Outcome.mapError_error, bind, Except.bind]
    | ok declared =>
      have hdecl := (declared?_eq_ok_iff (Json.ordered_parseBytes hv)).1 hf
      exact absurd ⟨entries, attachments, declared, hm, ⟨parts, hd, hp⟩, hdecl⟩ h

/-- The output of a reply is read from text, or missing. -/
theorem ordered_output {reply : Reply} (h : ofResponse r = .ok reply) : reply.output.Ordered := by
  by_cases hk : ∃ entries attachments declared, Keeps r entries attachments declared
  · obtain ⟨entries, attachments, declared, hk⟩ := hk
    rw [ofResponse_of_keeps hk] at h
    obtain ⟨_, -, hp⟩ := hk.parts
    obtain ⟨_, -, hv⟩ := hp.answer
    have ho := (Json.ordered_object.1 (Json.ordered_parseBytes hv)).2
    cases declared with
    | some d => cases h
    | none =>
      cases h
      cases hg : Entries.get? entries "output" with
      | none => exact .null
      | some v => exact ho _ (Entries.mem_of_get? hg)
  · obtain ⟨b, hb⟩ := ofResponse_of_breach hk
    rw [hb] at h
    cases h

/-! ### Encoded responses -/

open Multipart (FormPart TypeOnLine encodeForm quote received)

/-- The response that carries an encoded form. -/
def carrying (status stamp count : Nat) (parts : List FormPart) : Response :=
  let form := (encodeForm stamp count parts).1
  ⟨status, some form.contentType, form.body⟩

/-- The attachment that a file is delivered as. -/
def delivered (p : FormPart) (filename type : String) : Attachment :=
  ⟨p.body, String.ofList (quote filename), String.ofList (Text.trim type.toList)⟩

theorem parseBytes_text {v : Json} (hw : Json.Whole v) (ho : Json.Ordered v)
    (hn : v.depth ≤ Json.depthLimit) : Json.parseBytes (Text.Utf8.bytes v.text) = .ok v := by
  rw [Json.parseBytes, Text.Utf8.bytes, Json.text, String.toList_ofList,
    Text.Utf8.decode?_encode]
  exact Json.parse_chars hw ho hn

theorem isAnswer_received (p : FormPart) : isAnswer (received p) = p.file.isNone := by
  rw [isAnswer, Multipart.header?_type, Option.isNone_map]

theorem isAttachment_received {p : FormPart} {filename type : String}
    (hf : p.file = some (filename, type)) (hs : ¬ "filename=".toList <:+ quote p.name)
    (hn : filename ≠ "") : IsAttachment (received p) (delivered p filename type) where
  type := by rw [Multipart.header?_type, hf]; rfl
  name := by
    rw [Multipart.header?_disposition, Option.getD_some, String.toList_ofList, delivered,
      String.toList_ofList]
    exact Multipart.filename_eq_ok_iff.1 (Multipart.filename_disposition p hf hs hn)
  data := rfl

/-- A form keeps the contract as soon as its parts do. -/
theorem keeps_carrying {parts : List FormPart} (status stamp count : Nat)
    (ht : ∀ p ∈ parts, TypeOnLine p) (hp : Holds (parts.map received) entries attachments)
    (hd : Declares entries declared) :
    Keeps (carrying status stamp count parts) entries attachments declared := by
  have hdec := Multipart.decode_encodeForm stamp count ht
  have hm := isMultipart_iff_isMultipartType.1 (Multipart.decode_cases hdec).1
  exact ⟨hm, ⟨_, hdec, hp⟩, hd⟩

/-! ### The contract -/

/-- Only a response that keeps the contract yields anything else than a breach, whatever its parts
and in whatever order: its reply, or, even if there is an output, the failure that it declares. -/
theorem ofResponse_enforces_contract (r : Response) :
    (∀ f, ofResponse r = .error f →
      (∃ b, f = .protocol b) ∨ ∃ d : Descriptor, d.Becomes f) ∧
    (((∃ reply, ofResponse r = .ok reply) ∨
        ∃ f, ofResponse r = .error f ∧ ∀ b, f ≠ .protocol b) ↔
      ∃ entries attachments declared, Keeps r entries attachments declared) ∧
    (∀ entries attachments, Keeps r entries attachments none →
      ofResponse r = .ok ⟨(Entries.get? entries "output").getD .null, attachments⟩) ∧
    ∀ entries attachments d, Keeps r entries attachments (some d) →
      ∃ f, d.Becomes f ∧ ofResponse r = .error f := by
  by_cases h : ∃ entries attachments declared, Keeps r entries attachments declared
  · obtain ⟨entries, attachments, declared, hk⟩ := h
    have hr := ofResponse_of_keeps hk
    have hne : (∃ reply, ofResponse r = .ok reply) ∨
        ∃ f, ofResponse r = .error f ∧ ∀ b, f ≠ .protocol b := by
      cases declared with
      | none => exact .inl ⟨_, hr⟩
      | some d => exact .inr ⟨_, hr, d.becomes_failure.ne_protocol⟩
    refine ⟨fun f hf => ?_, ⟨fun _ => ⟨_, _, _, hk⟩, fun _ => hne⟩,
      fun _ _ hk' => ofResponse_of_keeps hk',
      fun _ _ d hk' => ⟨d.failure, d.becomes_failure, ofResponse_of_keeps hk'⟩⟩
    rw [hr] at hf
    cases declared with
    | none => cases hf
    | some d =>
      cases hf
      exact .inr ⟨d, d.becomes_failure⟩
  · obtain ⟨b, hr⟩ := ofResponse_of_breach h
    refine ⟨fun f hf => ?_, ⟨?_, fun hk => absurd hk h⟩,
      fun _ _ hk => absurd ⟨_, _, _, hk⟩ h, fun _ _ _ hk => absurd ⟨_, _, _, hk⟩ h⟩
    · rw [hr] at hf
      cases hf
      exact .inl ⟨b, rfl⟩
    · rintro (⟨reply, ho⟩ | ⟨f, hf, hne⟩)
      · cases hr.symm.trans ho
      · cases hr.symm.trans hf
        exact absurd rfl (hne b)

/-- The answer of a refusal without a message that also has an output. -/
def refusal : Entries Json :=
  [("error", .object [("name", .string "InfoError")]), ("output", .integer (.ofByte 1))]

def refused : Response := carrying 500 1 0 [.text "data" (Json.object refusal).text]

/-- An attachment in front of an answer without an output. -/
def served : Response :=
  carrying 200 1 0 [.ofFile "file_0" "x" "t" [33], .text "data" (Json.object []).text]

theorem keeps_refused :
    Keeps refused refusal [] (some ⟨"InfoError", "Unknown error"⟩) := by
  have ho : Json.Ordered (.object refusal) := by
    apply Json.Ordered.object
    · exact List.pairwise_pair.2 (by decide)
    · simp [refusal, Json.integer, Entries.Ordered]
  have hb := parseBytes_text (v := .object refusal) (by simp [refusal, Json.integer]) ho (by decide)
  refine keeps_carrying 500 1 0 ?_ ⟨⟨_, rfl, hb⟩, .nil⟩
    (.failure rfl (.object rfl .missing))
  simp [TypeOnLine, FormPart.text]

theorem keeps_served : Keeps served [] [⟨[33], "x", "t"⟩] none := by
  have hb := parseBytes_text (v := .object []) (by simp) (by simp [Entries.Ordered]) (by decide)
  have hl : ¬ Text.lineEnd <:+: "t".toList := Text.not_lineEnd_infix_of_not_mem (by decide)
  refine keeps_carrying 200 1 0 ?_ ⟨⟨_, rfl, hb⟩, .cons ?_ .nil⟩ (.missing rfl)
  · simpa [TypeOnLine, FormPart.text, FormPart.ofFile] using hl
  · exact isAttachment_received (p := .ofFile "file_0" "x" "t" [33]) rfl (by decide) (by decide)

theorem ofResponse_enforces_contract_on_refusal :
    Keeps refused refusal [] (some ⟨"InfoError", "Unknown error"⟩) ∧
    ofResponse refused = .error (.info "Unknown error") ∧
    Keeps served [] [⟨[33], "x", "t"⟩] none ∧
    ofResponse served = .ok ⟨.null, [⟨[33], "x", "t"⟩]⟩ := by
  obtain ⟨f, hb, hr⟩ := (ofResponse_enforces_contract refused).2.2.2 _ _ _ keeps_refused
  refine ⟨keeps_refused, ?_, keeps_served,
    (ofResponse_enforces_contract served).2.2.1 _ _ keeps_served⟩
  cases hb with
  | info _ => exact hr
  | unauthorized h => exact absurd h (by decide)
  | notFound h => exact absurd h (by decide)
  | input h => exact absurd h (by decide)
  | unknown h => exact absurd (by decide) h

end RemoteCall.Reply
