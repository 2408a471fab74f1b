import RemoteCall.Proofs.Client.Export
import RemoteCall.Proofs.Client.Session
import RemoteCall.Proofs.Shape.Field

/-!
Logging in where the output itself declares an error. Main statement: an object that reads as
credentials with an error makes logging in fail. A list that does is taken for credentials that are
valid, error and all.
-/

namespace RemoteCall

namespace Credentials

/-- The credentials that an output reads as. -/
def decode? (output : Json) : Option Credentials :=
  match shape.build output with
  | .typed d => ofDatum? d
  | .raw _ => none

def fields : List (Field Shape) :=
  [.required "token" .text, ⟨"expiration", .option .text, some .absent⟩,
   ⟨"user_uid", .text, some (.text "")⟩, ⟨"error", .text, some (.text "")⟩]

theorem error_of_ofDatum? {xs : List (String × Datum)} {c : Credentials}
    (h : ofDatum? (.record xs) = some c) : Entries.get? xs "error" = some (.text c.error) := by
  unfold ofDatum? at h
  split at h
  · next he =>
    obtain ⟨expiration, -, rfl⟩ := Option.map_eq_some_iff.1 h
    cases he
    rfl
  · cases h

/-- A field of text that may be missing says what is carried for it, and nothing else than text can
be carried. -/
theorem text_of_readAs {read : Shape → Decoder} (hr : read .text = Decoder.text) {name s : String}
    {v : Option Json}
    (h : Field.ReadAs read ⟨name, .text, some (.text "")⟩ v (.text s)) :
    s = (v >>= Json.text?).getD "" := by
  cases h with
  | given hg =>
    change read .text _ = _ at hg
    rw [hr] at hg
    obtain ⟨t, rfl, ht⟩ := Decoder.text_eq_ok_iff.1 hg
    cases ht
    rfl
  | missing hm =>
    cases hm
    rfl

/-- The error of credentials is the text that the output carries for it, if any. -/
theorem error_of_decode? {output : Json} (ho : output.Ordered) {c : Credentials}
    (h : decode? output = some c) :
    c.error = (Shape.carried? fields "error" output >>= Json.text?).getD "" := by
  have hd : (fields.map Field.name).Nodup := by decide
  unfold decode? at h
  split at h
  · next d hb =>
    obtain ⟨xs, rfl, hr⟩ := Shape.reads_of_build hd ho hb
    have hc := error_of_ofDatum? h
    rcases hr with ⟨-, hr⟩ | ⟨-, -, hr⟩
    · obtain ⟨y, hy, hr⟩ := hr _ (List.mem_of_getElem? (i := 3) rfl)
      cases hc.symm.trans hy
      exact text_of_readAs rfl hr
    · obtain ⟨y, hy, hr⟩ := hr _ (List.mem_of_getElem? (i := 3) rfl)
      cases hc.symm.trans hy
      refine (text_of_readAs rfl hr).trans ?_
      change ((Shape.carried? fields "error" output).filter _ >>= Json.text?).getD "" = _
      -- an entry that holds null says as little as one that is missing
      cases Shape.carried? fields "error" output with
      | none => rfl
      | some v => cases v <;> rfl
  · cases h

end Credentials

namespace Client

theorem credentials_of_declared {output : Json} {message : String}
    (h : declared? output = some message) :
    credentials output = .error (.unauthorized message) := by
  rw [credentials, h]

theorem credentials_eq_ok_iff {output : Json} {c : Credentials} :
    credentials output = .ok c ↔
      declared? output = none ∧ Credentials.decode? output = some c := by
  cases h : declared? output with
  | some message => simp [credentials_of_declared h]
  | none =>
    rw [credentials, h, Credentials.decode?]
    dsimp only
    cases hb : Credentials.shape.build output with
    | typed d =>
      simp only [Built.require]
      cases Credentials.ofDatum? d <;> simp
    | raw v =>
      -- what is not built could not be read strictly either
      unfold Shape.build at hb
      split at hb
      · cases hb
      · next m hm =>
        split at hb
        · cases hb
        · cases hb
          simp [Built.require, hm]

/-- What an object declares is the error of the credentials that it reads as. A list declares
nothing, and its fourth element is the error. -/
theorem declared?_of_decode? {output : Json} (ho : output.Ordered) {c : Credentials}
    (h : Credentials.decode? output = some c) :
    (∃ es, output = .object es ∧
      declared? output = if c.error = "" then none else some c.error) ∨
    ∃ vs, output = .array vs ∧ declared? output = none ∧
      (c.error ≠ "" → vs[3]? = some (.string c.error)) := by
  have he := Credentials.error_of_decode? ho h
  cases output with
  | object es =>
    refine .inl ⟨es, rfl, ?_⟩
    change c.error = ((Entries.get? es "error") >>= Json.text?).getD "" at he
    change ((Entries.get? es "error") >>= Json.text?).filter _ = _
    rw [he]
    cases Entries.get? es "error" >>= Json.text? with
    | none => rfl
    | some s => by_cases hs : s = "" <;> simp [hs]
  | array vs =>
    refine .inr ⟨vs, rfl, rfl, fun hne => ?_⟩
    have hi : (Credentials.fields.map Field.name).idxOf "error" = 3 := by decide
    rw [Shape.carried?, hi] at he
    cases hv : vs[3]? with
    | none =>
      rw [hv] at he
      exact absurd he hne
    | some v =>
      rw [hv] at he
      cases v with
      | string s =>
        change c.error = s at he
        rw [he]
      | _ => exact absurd he hne
  | _ => cases h

end Client

/-! ### Runs -/

section

variable {config : Config} {w : World} {ops : List Operation} {past rest : List Event} {e : Event}
  {l : Login}

theorem Event.result_login (he : e.operation = .login l) :
    e.result = ((e.reply ⟨"auth.login", l.toJson, []⟩).bind fun r =>
      Client.credentials r.output).map .credentials := by
  have hq : e.operation.call? = some ⟨"auth.login", l.toJson, []⟩ := by rw [he]; rfl
  rw [e.result_eq hq, he]
  rfl

theorem Event.session_of_credentials (he : e.operation = .login l) {c : Credentials}
    (hr : e.result = .ok (.credentials c)) :
    e.after.client.session = .authenticated ⟨c.token, none⟩ := by
  rw [e.session_after, Event.settles?, he, hr]
  rfl

theorem Event.session_of_error (he : e.operation = .login l) {f : Failure}
    (hr : e.result = .error f) : e.after.client.session = .anonymous := by
  rw [e.session_after, Event.settles?, he, hr]
  rfl

/-- Logging in, in a run. What it returns was read of the output, and carries an error only if the
output is a list. Where the output reads as credentials with an error, an object makes logging in
fail with that error, and leaves no session; a list lets it succeed. -/
theorem login_refuses_errors_unless_listed
    (h : trace ops ⟨.ofConfig config, w⟩ = past ++ e :: rest) (he : e.operation = .login l) :
    (∀ c, e.result = .ok (.credentials c) →
      e.after.client.session = .authenticated ⟨c.token, none⟩ ∧
      ∃ r, e.reply ⟨"auth.login", l.toJson, []⟩ = .ok r ∧
        Credentials.decode? r.output = some c ∧
        (c.error ≠ "" → ∃ vs, r.output = .array vs ∧ vs[3]? = some (.string c.error))) ∧
    ∀ r c, e.reply ⟨"auth.login", l.toJson, []⟩ = .ok r →
      Credentials.decode? r.output = some c → c.error ≠ "" →
      (∃ es, r.output = .object es ∧ e.result = .error (.unauthorized c.error) ∧
        e.after.client.session = .anonymous) ∨
      ∃ vs, r.output = .array vs ∧ vs[3]? = some (.string c.error) ∧
        e.result = .ok (.credentials c) ∧
        e.after.client.session = .authenticated ⟨c.token, none⟩ := by
  have hx : Executed e.called ⟨"auth.login", l.toJson, []⟩ (e.reply _) _ :=
    executed_execute e.called _
  have hres := Event.result_login he
  refine ⟨fun c hr => ⟨Event.session_of_credentials he hr, ?_⟩, fun r c hr hd hne => ?_⟩
  · rw [hres, Outcome.map_eq_ok_iff] at hr
    obtain ⟨c', hc, hcc⟩ := hr
    cases hcc
    cases hr : e.reply ⟨"auth.login", l.toJson, []⟩ with
    | error f =>
      rw [hr] at hc
      cases hc
    | ok r =>
      rw [hr] at hc hx
      have ho := hx.ordered_output (ordered_of_trace h)
      obtain ⟨hn, hd⟩ := Client.credentials_eq_ok_iff.1 hc
      refine ⟨r, rfl, hd, fun hne => ?_⟩
      rcases Client.declared?_of_decode? ho hd with ⟨es, -, hm⟩ | ⟨vs, hvs, -, hv⟩
      · rw [hn, if_neg hne] at hm
        cases hm
      · exact ⟨vs, hvs, hv hne⟩
  · rw [hr] at hres hx
    have ho := hx.ordered_output (ordered_of_trace h)
    rcases Client.declared?_of_decode? ho hd with ⟨es, hes, hm⟩ | ⟨vs, hvs, hm, hv⟩
    · rw [if_neg hne] at hm
      have hres : e.result = .error (.unauthorized c.error) := by
        rw [hres, Except.bind, Client.credentials_of_declared hm]
        rfl
      exact .inl ⟨es, hes, hres, Event.session_of_error he hres⟩
    · have hres : e.result = .ok (.credentials c) := by
        rw [hres, Except.bind, Client.credentials_eq_ok_iff.2 ⟨hm, hd⟩]
        rfl
      exact .inr ⟨vs, hvs, hv hne, hres, Event.session_of_credentials he hres⟩

end

/-- A client in a world that answers with a list, which tells that nobody is let in. -/
def denying : State where
  client := .ofConfig .default
  world := .answering (.ok ⟨200, some "multipart/x; boundary=b",
    [45, 45, 98, 13, 10, 13, 10, 123, 34, 111, 117, 116, 112, 117, 116, 34, 58, 91, 34, 116, 34, 44,
      110, 117, 108, 108, 44, 34, 117, 34, 44, 34, 100, 101, 110, 105, 101, 100, 34, 93, 125, 13,
      10, 45, 45, 98, 45, 45]⟩)

def denial : Event := ⟨.login ⟨"u", "p"⟩, denying⟩

theorem login_refuses_errors_unless_listed_admission :
    trace [.login ⟨"u", "p"⟩] admitting = [] ++ admission :: [] ∧
      admission.operation = .login ⟨"u", "p"⟩ ∧
      admission.after.client.session = .authenticated ⟨"k", none⟩ ∧
      ∃ r, admission.reply ⟨"auth.login", Login.toJson ⟨"u", "p"⟩, []⟩ = .ok r ∧
        Credentials.decode? r.output = some ⟨"k", none, "", ""⟩ := by
  have ht : trace [.login ⟨"u", "p"⟩] admitting = [] ++ admission :: [] := rfl
  have hr : admission.result = .ok (.credentials ⟨"k", none, "", ""⟩) := by
    with_unfolding_all rfl
  obtain ⟨hs, r, hq, hd, -⟩ := (login_refuses_errors_unless_listed ht rfl).1 _ hr
  exact ⟨ht, rfl, hs, r, hq, hd⟩

/-- Whoever is denied by a list is let in. -/
theorem login_takes_listed_error :
    trace [.login ⟨"u", "p"⟩] denying = [] ++ denial :: [] ∧
      denial.result = .ok (.credentials ⟨"t", none, "u", "denied"⟩) ∧
      denial.after.client.session = .authenticated ⟨"t", none⟩ := by
  have hr : denial.result = .ok (.credentials ⟨"t", none, "u", "denied"⟩) := by
    with_unfolding_all rfl
  exact ⟨rfl, hr, Event.session_of_credentials rfl hr⟩

end RemoteCall
