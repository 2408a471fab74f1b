/-!
Finite maps from text, as lists of entries in the order of their keys. Every operation is total on
all lists; the ordered ones are those that the operations build.
-/

namespace RemoteCall

abbrev Entries (α : Type) := List (String × α)

namespace Entries

variable {α β : Type}

/-- The keys strictly increase. -/
def Ordered (es : Entries α) : Prop := es.Pairwise fun a b => a.1 < b.1

def get? : Entries α → String → Option α
  | [], _ => none
  | (k, v) :: es, key => if k = key then some v else get? es key

/-- Puts a value under a key, in place of one already there. -/
def put : Entries α → String → α → Entries α
  | [], key, value => [(key, value)]
  | (k, v) :: es, key, value =>
    if key < k then (key, value) :: (k, v) :: es
    else if k = key then (key, value) :: es
    else (k, v) :: put es key value

def drop (es : Entries α) (key : String) : Entries α := es.filter fun e => e.1 ≠ key

/-- Of several values under one key the last one stays. -/
def ofList (es : List (String × α)) : Entries α := es.foldl (fun acc e => acc.put e.1 e.2) []

def mapValues (f : α → β) (es : Entries α) : Entries β := es.map fun e => (e.1, f e.2)

@[simp] theorem get?_nil (key : String) : get? ([] : Entries α) key = none := rfl

theorem get?_put_self (es : Entries α) (key : String) (value : α) :
    (es.put key value).get? key = some value := by
  induction es with
  | nil => simp [put, get?]
  | cons e es ih =>
    obtain ⟨k, v⟩ := e
    simp only [put]
    split
    · simp [get?]
    · split <;> simp_all [get?]

theorem get?_put_of_ne (es : Entries α) {key other : String} (value : α) (h : key ≠ other) :
    (es.put key value).get? other = es.get? other := by
  induction es with
  | nil => simp [put, get?, h]
  | cons e es ih =>
    obtain ⟨k, v⟩ := e
    simp only [put]
    split
    · simp [get?, h]
    · split <;> simp_all [get?]

end Entries

end RemoteCall
