import RemoteCall.Shape.Built

/-! The payloads of the functions that the client knows by itself. -/

namespace RemoteCall

structure Login where
  email : String
  password : String

namespace Login

def shape : Shape :=
  .record "CredentialsIn" [.required "email" .text, .required "password" .text]

def toJson (l : Login) : Json :=
  .ofEntries [("email", .string l.email), ("password", .string l.password)]

end Login

structure Credentials where
  token : String
  expiration : Option String
  user : String
  error : String

namespace Credentials

def shape : Shape :=
  .record "CredentialsOut"
    [.required "token" .text, ⟨"expiration", .option .text, some .absent⟩,
     ⟨"user_uid", .text, some (.text "")⟩, ⟨"error", .text, some (.text "")⟩]

def optional? : Datum → Option (Option String)
  | .absent => some none
  | .present (.text s) => some (some s)
  | _ => none

def ofDatum? : Datum → Option Credentials
  | .record
      [("token", .text token), ("expiration", expiration), ("user_uid", .text user),
       ("error", .text error)] =>
    (optional? expiration).map fun expiration => ⟨token, expiration, user, error⟩
  | _ => none

def toJson (c : Credentials) : Json :=
  .ofEntries
    [("token", .string c.token),
     ("expiration", match c.expiration with | some s => .string s | none => .null),
     ("user_uid", .string c.user), ("error", .string c.error)]

end Credentials

def serverTime : Shape :=
  .record "Time"
    [.required "full_time" .text, .required "int_timestamp" .i64,
     .required "float_timestamp" .f64, .required "time" .text, .required "date" .text]

def homepageStats : Shape :=
  .record "HomepageStats"
    [.required "users" .u64, .required "problems" .u64, .required "submissions" .u64,
     ⟨"exams", .u64, some (.integer ⟨0, by decide⟩)⟩,
     ⟨"contests", .u64, some (.integer ⟨0, by decide⟩)⟩]

end RemoteCall
