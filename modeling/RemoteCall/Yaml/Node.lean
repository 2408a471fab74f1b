/-!
Nodes of a YAML document. An alias names a slot, and stands for the last node in the document that
is anchored there, whether that node comes before the alias, after it or around it.
-/

namespace RemoteCall.Yaml

/-- What a node carries in front of its content: the slot of its anchor, and its tag. -/
structure Properties where
  slot : Option Nat
  tag : Option String

namespace Properties

def none : Properties := ⟨.none, .none⟩

end Properties

inductive Node
  | alias (slot : Nat)
  | scalar (properties : Properties) (text : String) (plain : Bool)
  | sequence (properties : Properties) (items : List Node)
  | mapping (properties : Properties) (entries : List (Node × Node))

namespace Node

/-- The node that stands where nothing is written. -/
def empty : Node := .scalar .none "" true

def slot? : Node → Option Nat
  | .alias _ => none
  | .scalar p .. => p.slot
  | .sequence p _ => p.slot
  | .mapping p _ => p.slot

mutual

/-- The node and all nodes in it, in the order in which they begin. -/
def nodes : Node → List Node
  | .alias slot => [.alias slot]
  | .scalar p text plain => [.scalar p text plain]
  | .sequence p items => .sequence p items :: itemsNodes items
  | .mapping p entries => .mapping p entries :: entriesNodes entries

def itemsNodes : List Node → List Node
  | [] => []
  | n :: ns => n.nodes ++ itemsNodes ns

def entriesNodes : List (Node × Node) → List Node
  | [] => []
  | (k, v) :: es => k.nodes ++ v.nodes ++ entriesNodes es

end

def target? (document : Node) (slot : Nat) : Option Node :=
  document.nodes.reverse.find? fun n => n.slot? = some slot

/-- How many marks delimit a node: one for a scalar or an alias, two for a collection. -/
def weight : Node → Nat
  | .alias _ => 1
  | .scalar .. => 1
  | .sequence .. => 2
  | .mapping .. => 2

def size (document : Node) : Nat := document.nodes.foldr (fun n size => n.weight + size) 0

end Node

end RemoteCall.Yaml
