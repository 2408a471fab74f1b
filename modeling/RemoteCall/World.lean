import RemoteCall.Disk
import RemoteCall.Program

/-!
A model of the world around a program: files, a clock, and a network whose reply depends on all that
was posted so far. Main statement: running two programs one after the other is running their
sequence.
-/

namespace RemoteCall

structure Post where
  url : String
  form : Multipart.Form

structure World where
  disk : Disk
  folder : Disk.Place
  input : List UInt8
  environment : List (String × String)
  clock : Nat → Instant
  stamps : Nat → Nat
  network : List Post → Except String Response
  readings : Nat
  stamped : Nat
  posted : List Post
  output : String
  errors : String

namespace World

def answer (w : World) : (q : Question) → q.Answer × World
  | .now => (w.clock w.readings, { w with readings := w.readings + 1 })
  | .stamp => (w.stamps w.stamped, { w with stamped := w.stamped + 1 })
  | .post url form =>
    let posted := w.posted ++ [⟨url, form⟩]
    (w.network posted, { w with posted })
  | .openFile path =>
    match w.disk.find w.folder path.toList with
    | .ok (.file data) => (.ok (.ofBytes data), w)
    | .ok .folder => (.ok ⟨[], some DiskFault.isFolder.message⟩, w)
    | .error f => (.error f.message, w)
  | .writeFile path data =>
    match w.disk.write w.folder path.toList data with
    | .ok disk => (.ok ⟨⟩, { w with disk })
    | .error f => (.error f.message, w)
  | .makeFolders path =>
    match w.disk.makeFolders w.folder path.toList with
    | .ok disk => (.ok ⟨⟩, { w with disk })
    | .error f => (.error f.message, w)
  | .input => (w.input, w)
  | .variable name => (w.environment.lookup name, w)
  | .print text => (⟨⟩, { w with output := w.output ++ text })
  | .report text => (⟨⟩, { w with errors := w.errors ++ text })

end World

namespace Program

variable {α β : Type}

def run : Program α → World → α × World
  | .done a, w => (a, w)
  | .ask q next, w => (next (w.answer q).1).run (w.answer q).2

@[simp] theorem run_done (a : α) (w : World) : (Program.done a).run w = (a, w) := rfl

@[simp] theorem run_ask (q : Question) (next : q.Answer → Program α) (w : World) :
    (Program.ask q next).run w = (next (w.answer q).1).run (w.answer q).2 := rfl

theorem run_bind (p : Program α) (f : α → Program β) (w : World) :
    (p >>= f).run w = (f (p.run w).1).run (p.run w).2 := by
  induction p generalizing w with
  | done a => rfl
  | ask q next ih => exact ih _ _

end Program

end RemoteCall
