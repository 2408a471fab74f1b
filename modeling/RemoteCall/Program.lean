import RemoteCall.Cache
import RemoteCall.Envelope
import RemoteCall.Reply

/-!
Programs: what they ask of the world around them, and how they go on with each answer. A program is
a value, so that it can be run against the real world and against a model of it alike.
-/

namespace RemoteCall

/-- What a program may ask: the time, a number for a new boundary, the reply to a form posted to an
address, a file, and so on. `print` and `report` write to the output and to the errors. -/
inductive Question
  | now
  | stamp
  | post (url : String) (form : Multipart.Form)
  | openFile (path : String)
  | writeFile (path : String) (data : List UInt8)
  | makeFolders (path : String)
  | input
  | variable (name : String)
  | print (text : String)
  | report (text : String)

/-- The answers to a question. What goes wrong is told in the words of the world. -/
def Question.Answer : Question → Type
  | .now => Instant
  | .stamp => Nat
  | .post .. => Except String Response
  | .openFile _ => Except String Stream
  | .writeFile .. => Except String PUnit
  | .makeFolders _ => Except String PUnit
  | .input => List UInt8
  | .variable _ => Option String
  | .print _ => PUnit
  | .report _ => PUnit

inductive Program (α : Type) : Type
  | done (a : α)
  | ask (q : Question) (next : q.Answer → Program α)

namespace Program

variable {α β γ : Type}

def bind : Program α → (α → Program β) → Program β
  | .done a, f => f a
  | .ask q next, f => .ask q fun a => (next a).bind f

instance : Monad Program where
  pure := .done
  bind := bind

@[simp] theorem pure_eq (a : α) : (pure a : Program α) = .done a := rfl

@[simp] theorem done_bind (a : α) (f : α → Program β) : (Program.done a >>= f) = f a := rfl

@[simp] theorem ask_bind (q : Question) (next : q.Answer → Program α) (f : α → Program β) :
    (Program.ask q next >>= f) = .ask q fun a => next a >>= f := rfl

def question (q : Question) : Program q.Answer := .ask q .done

end Program

end RemoteCall
