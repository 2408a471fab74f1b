import RemoteCall.Command.Run
import RemoteCall.Http
import Std.Async.DNS
import Std.Async.TCP
import Std.Time.DateTime.Timestamp

/-! The program against the real world: files, streams, the clock, and plain HTTP. -/

namespace RemoteCall.Outside

open Std.Async Std.Net

def message : IO.Error → String
  | .alreadyExists _ code text => numbered code text
  | .otherError code text => numbered code text
  | .resourceBusy code text => numbered code text
  | .resourceVanished code text => numbered code text
  | .unsupportedOperation code text => numbered code text
  | .hardwareFault code text => numbered code text
  | .unsatisfiedConstraints code text => numbered code text
  | .illegalOperation code text => numbered code text
  | .protocolError code text => numbered code text
  | .timeExpired code text => numbered code text
  | .interrupted _ code text => numbered code text
  | .noFileOrDirectory _ code text => numbered code text
  | .invalidArgument _ code text => numbered code text
  | .permissionDenied _ code text => numbered code text
  | .resourceExhausted _ code text => numbered code text
  | .inappropriateType _ code text => numbered code text
  | .noSuchThing _ code text => numbered code text
  | .unexpectedEof => "unexpected end of file"
  | .userError text => text
where
  numbered (code : UInt32) (text : String) : String :=
    text ++ " (os error " ++ Http.decimal code.toNat ++ ")"

def attempt {α : Type} (act : IO α) : IO (Except String α) := do
  try return .ok (← act) catch e => return .error (message e)

/-! ### Streams and files -/

partial def drain (stream : IO.FS.Stream) (sofar : ByteArray) : IO ByteArray := do
  let chunk ← stream.read 65536
  if chunk.isEmpty then return sofar else drain stream (sofar ++ chunk)

def openFile (path : String) : IO (Except String Stream) :=
  attempt do
    let handle ← IO.FS.Handle.mk path .read
    match ← attempt handle.readBinToEnd with
    | .ok bytes => return .ofBytes bytes.toList
    | .error text => return ⟨[], some text⟩

/-! ### The network -/

partial def receive (socket : TCP.Socket.Client) (sofar : ByteArray) : IO ByteArray := do
  match ← (socket.recv? 65536).block with
  | some chunk => receive socket (sofar ++ chunk)
  | none => return sofar

def socketAddress (u : Url) : IO (Option SocketAddress) := do
  let host := String.ofList ((u.host.getD []).filter (· ∉ ['[', ']']))
  let channel := u.channel.getD 80
  let found ← (DNS.getAddrInfo host (Http.decimal channel)).block
  return found[0]?.map fun
    | .v4 addr => .v4 ⟨addr, channel.toUInt16⟩
    | .v6 addr => .v6 ⟨addr, channel.toUInt16⟩

/-- Carries a request to its address. Places behind encryption are out of reach. -/
def carry (u : Url) (form : Multipart.Form) : IO (Option Response) := do
  if u.scheme ≠ "http".toList then return none
  try
    match ← socketAddress u with
    | none => return none
    | some address =>
      let socket ← TCP.Socket.Client.mk
      (socket.connect address).block
      (socket.send ⟨(Http.request u form).toArray⟩).block
      return Http.response? (← receive socket .empty).toList
  catch _ => return none

/-! ### Questions -/

def answer : (q : Question) → IO q.Answer
  | .now => do return .clamp (← Std.Time.Timestamp.now).toMillisecondsSinceUnixEpoch.val
  | .stamp => do return (← IO.monoNanosNow)
  | .post url form => Http.post carry url form
  | .openFile path => openFile path
  | .writeFile path data => attempt (IO.FS.writeBinFile path ⟨data.toArray⟩)
  | .makeFolders path => attempt (if path = "" then return ⟨⟩ else IO.FS.createDirAll path)
  | .input => do return (← drain (← IO.getStdin) .empty).toList
  | .variable name => IO.getEnv name
  | .print text => IO.print text
  | .report text => IO.eprint text

def run {α : Type} : Program α → IO α
  | .done a => return a
  | .ask q next => do run (next (← answer q))

end RemoteCall.Outside

def main (args : List String) : IO UInt32 :=
  RemoteCall.Outside.run (RemoteCall.Command.program args)
