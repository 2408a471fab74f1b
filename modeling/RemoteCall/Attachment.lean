import RemoteCall.Shape.Basic

/-! Files that come with a reply. -/

namespace RemoteCall

structure Attachment where
  data : List UInt8
  name : String
  type : String
  deriving DecidableEq

namespace Attachment

def shape : Shape :=
  .record "Attachment"
    [.required "data" (.list (.integer (.unsigned 8))), .required "name" .text,
     .required "type" .text]

def toDatum (a : Attachment) : Datum :=
  .record
    [("data", .list (a.data.map fun b => .integer (Integer.ofByte b))), ("name", .text a.name),
     ("type", .text a.type)]

def toJson (a : Attachment) : Json := a.toDatum.toJson

def byte? : Datum → Option UInt8
  | .integer n => some (UInt8.ofNat n.val.toNat)
  | _ => none

def ofDatum? : Datum → Option Attachment
  | .record [("data", .list ds), ("name", .text name), ("type", .text type)] =>
    (ds.mapM byte?).map fun data => ⟨data, name, type⟩
  | _ => none

end Attachment

end RemoteCall
