import RemoteCall.Shape.Lax

/-! Reading that never fails: a value that fits neither strictly nor leniently stays as it is. -/

namespace RemoteCall

inductive Built
  | typed (d : Datum)
  | raw (v : Json)

namespace Built

def toJson : Built → Json
  | .typed d => d.toJson
  | .raw v => v

def require (s : Shape) : Built → Except Mismatch Datum
  | .typed d => .ok d
  | .raw v => s.strict v

end Built

namespace Shape

/-- Reads strictly, else leniently, else not at all. -/
def build (s : Shape) (v : Json) : Built :=
  match s.strict v with
  | .ok d => .typed d
  | .error _ =>
    match s.lax v with
    | .ok d => .typed d
    | .error _ => .raw v

end Shape

end RemoteCall
