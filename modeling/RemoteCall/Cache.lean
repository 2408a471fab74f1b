import RemoteCall.Attachment
import RemoteCall.Json.Parser
import RemoteCall.Shape.Written

/-!
Replies kept for a time. A reply is kept under a key made of the function and its input, and is
live until a number of seconds after it was stored that depends on the function.
-/

namespace RemoteCall

/-- A time in milliseconds, of 64 bits. -/
abbrev Instant := { n : Int // -9223372036854775808 ≤ n ∧ n ≤ 9223372036854775807 }

namespace Instant

def clamp (n : Int) : Instant :=
  ⟨max (-9223372036854775808) (min n 9223372036854775807), by omega⟩

def toInteger (t : Instant) : Integer := ⟨t.val, by have := t.property; omega⟩

/-- The time a number of seconds later. Neither the duration nor the time passes the latest time. -/
def later (t : Instant) (seconds : UInt64) : Instant :=
  clamp (t.val + min (seconds.toNat * 1000) 9223372036854775807)

end Instant

structure CacheEntry where
  output : Json
  attachments : List Attachment
  epoch : Instant

namespace CacheEntry

def shape : Shape :=
  .record "CacheEntry"
    [.required "output" .any, .required "ofiles" (.list Attachment.shape), .required "epoch" .i64]

def toDatum (e : CacheEntry) : Datum :=
  .record
    [("output", .any e.output), ("ofiles", .list (e.attachments.map Attachment.toDatum)),
     ("epoch", .integer e.epoch.toInteger)]

def ofDatum? : Datum → Option CacheEntry
  | .record [("output", .any output), ("ofiles", .list ds), ("epoch", .integer n)] =>
    (ds.mapM Attachment.ofDatum?).map fun attachments => ⟨output, attachments, .clamp n.val⟩
  | _ => none

/-- From this time on the entry is not live any more. -/
def expiresAt (e : CacheEntry) (ttl : UInt64) : Instant := e.epoch.later ttl

end CacheEntry

structure Cache where
  entries : Entries CacheEntry

namespace Cache

def empty : Cache := ⟨[]⟩

def size (c : Cache) : Nat := c.entries.length

def key (func : String) (input : Json) : String :=
  (Json.object [("func", .string func), ("input", input)]).text

def func? (key : String) : Option String :=
  match Json.parse key.toList with
  | .ok v => v.get? "func" >>= Json.text?
  | .error _ => none

/-- The live entry under a key. One that is not live any more is dropped. -/
def lookup (c : Cache) (key : String) (ttl : UInt64) (now : Instant) :
    Option (Json × List Attachment) × Cache :=
  match c.entries.get? key with
  | some e =>
    if now.val < (e.expiresAt ttl).val then (some (e.output, e.attachments), c)
    else (none, ⟨c.entries.drop key⟩)
  | none => (none, c)

def store (c : Cache) (key : String) (output : Json) (attachments : List Attachment)
    (now : Instant) : Cache :=
  ⟨c.entries.put key ⟨output, attachments, now⟩⟩

/-- Whether an entry stays when those that have expired go. One of a function without a time to
live stays. -/
def stays (ttls : Entries UInt64) (now : Instant) (key : String) (e : CacheEntry) : Bool :=
  match func? key >>= ttls.get? with
  | some ttl => now.val ≤ (e.expiresAt ttl).val
  | none => true

def removeExpired (c : Cache) (ttls : Entries UInt64) (now : Instant) : Cache :=
  ⟨c.entries.filter fun e => stays ttls now e.1 e.2⟩

/-! ### Text -/

def shape : Shape := .map .text CacheEntry.shape

def toDatum (c : Cache) : Datum := .map (c.entries.mapValues CacheEntry.toDatum)

def ofDatum? : Datum → Option Cache
  | .map es =>
    (es.mapM fun e => (CacheEntry.ofDatum? e.2).map fun entry => (e.1, entry)).map Cache.mk
  | _ => none

def toJson (c : Cache) : Json := c.toDatum.toJson

def text (c : Cache) : String := c.toJson.text

def parse (cs : List Char) : Except Fault Cache := do
  match ofDatum? (← shape.parse cs) with
  | some c => return c
  | none => throw (.mismatch .noneFits)

end Cache

end RemoteCall
