/-! Cutting a list at the first occurrence of a shorter one. -/

namespace RemoteCall.Text

variable {α : Type} [DecidableEq α]

/-- What follows `needle` in a list that starts with it. -/
def afterStart? : List α → List α → Option (List α)
  | [], xs => some xs
  | _ :: _, [] => none
  | n :: needle, x :: xs => if n = x then afterStart? needle xs else none

/-- What stands before and after the first occurrence of `needle` in the list. -/
def cut? (needle : List α) : List α → Option (List α × List α)
  | [] => if needle = [] then some ([], []) else none
  | x :: xs =>
    match afterStart? needle (x :: xs) with
    | some after => some ([], after)
    | none => (cut? needle xs).map fun (before, after) => (x :: before, after)

def occurs (needle xs : List α) : Bool := (cut? needle xs).isSome

end RemoteCall.Text
