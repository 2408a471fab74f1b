import RemoteCall.Yaml.Node
import RemoteCall.Yaml.Token.Lexer
import RemoteCall.Entries

/-!
The node that a list of tokens stands for. Collections are blocks, which end with a token of their
own, lists of dashes directly under a key, which end where the dashes do, and bracketed ones.
-/

namespace RemoteCall.Yaml

/-- The tokens to come, the handles of tags, and the slots of the anchors so far. -/
structure Composer where
  tokens : List Token
  handles : List (String × String)
  slots : Entries Nat

abbrev Composing := StateT Composer (Except Obstruction)

namespace Composing

def fail {α : Type} (o : Obstruction) : Composing α := fun _ => .error o

def peek : Composing Token := fun s => .ok (s.tokens.headD .streamEnd, s)

def skip : Composing PUnit := fun s => .ok (⟨⟩, { s with tokens := s.tokens.drop 1 })

/-- Passes over the token in front and shows the one behind it. -/
def advance : Composing Token := do
  skip
  peek

/-- A new anchor takes the slot after those of the names known so far. -/
def anchor (name : String) : Composing Nat := fun s =>
  .ok (s.slots.length, { s with slots := s.slots.put name s.slots.length })

def slotOf (name : String) : Composing Nat := fun s =>
  match s.slots.get? name with
  | some slot => .ok (slot, s)
  | none => .error .undefinedAnchor

/-- The tag of a handle and a suffix; the empty handle stands for itself. -/
def tagOf (handle suffix : String) : Composing String := fun s =>
  if handle = "" then .ok (suffix, s)
  else
    match s.handles.lookup handle with
    | some lead => .ok (lead ++ suffix, s)
    | none => .error .undefinedHandle

def anchor? : Composing (Option Nat) := do
  match ← peek with
  | .anchor name => do
    skip
    return some (← anchor name)
  | _ => return none

def tag? : Composing (Option String) := do
  match ← peek with
  | .tag handle suffix => do
    skip
    return some (← tagOf handle suffix)
  | _ => return none

/-- An anchor and a tag, in either order. -/
def properties : Composing Properties := do
  match ← anchor? with
  | some slot => return ⟨some slot, ← tag?⟩
  | none => do
    let tag ← tag?
    return ⟨← anchor?, tag⟩

/-- What follows a key inside a block, where it is not written. -/
def endsBlockPart : Token → Bool
  | .key => true
  | .value => true
  | .blockEnd => true
  | _ => false

mutual

/-- A node. Blocks may stand only where `block` says so, and dashes that are no block of their own
where `dashes` does. -/
def node : Nat → Bool → Bool → Composing Node
  | 0, _, _ => fail .misfit
  | fuel + 1, block, dashes => do
    if let .alias name := ← peek then
      skip
      return .alias (← slotOf name)
    let p ← properties
    match ← peek with
    | .scalar text plain => do
      skip
      return .scalar p text plain
    | .flowSequence => do
      skip
      return .sequence p (← flowItems fuel true)
    | .flowMapping => do
      skip
      return .mapping p (← flowEntries fuel true)
    | t =>
      if dashes && t = .blockEntry then return .sequence p (← dashItems fuel)
      else if block && t = .blockSequence then
        skip
        return .sequence p (← blockItems fuel)
      else if block && t = .blockMapping then
        skip
        return .mapping p (← blockEntries fuel)
      else if p.slot.isSome || p.tag.isSome then return .scalar p "" true
      else fail .misfit
termination_by structural fuel => fuel

def blockItems : Nat → Composing (List Node)
  | 0 => fail .misfit
  | fuel + 1 => do
    match ← peek with
    | .blockEntry => do
      let t ← advance
      let item ←
        if t = .blockEntry || t = .blockEnd then pure .empty else node fuel true false
      return item :: (← blockItems fuel)
    | .blockEnd => do
      skip
      return []
    | _ => fail .misfit
termination_by structural fuel => fuel

def dashItems : Nat → Composing (List Node)
  | 0 => fail .misfit
  | fuel + 1 => do
    match ← peek with
    | .blockEntry => do
      let t ← advance
      let item ←
        if t = .blockEntry || endsBlockPart t then pure .empty else node fuel true false
      return item :: (← dashItems fuel)
    | _ => return []
termination_by structural fuel => fuel

def blockEntries : Nat → Composing (List (Node × Node))
  | 0 => fail .misfit
  | fuel + 1 => do
    match ← peek with
    | .key => do
      let t ← advance
      let k ← if endsBlockPart t then pure .empty else node fuel true true
      let v ←
        if (← peek) = .value then
          let t ← advance
          if endsBlockPart t then pure .empty else node fuel true true
        else pure .empty
      return (k, v) :: (← blockEntries fuel)
    | .blockEnd => do
      skip
      return []
    | _ => fail .misfit
termination_by structural fuel => fuel

/-- The items up to the closing bracket, with a comma between each two. A key among them is a
mapping of one entry; where it is empty, the token behind it is passed over. -/
def flowItems : Nat → Bool → Composing (List Node)
  | 0, _ => fail .misfit
  | fuel + 1, first => do
    if (← peek) = .flowSequenceEnd then
      skip
      return []
    if !first then
      if (← peek) = .flowEntry then skip else fail .misfit
    match ← peek with
    | .flowSequenceEnd => do
      skip
      return []
    | .key => do
      let t ← advance
      let k ←
        if t = .value || t = .flowEntry || t = .flowSequenceEnd then
          skip
          pure .empty
        else node fuel false false
      let v ←
        if (← peek) = .value then
          let t ← advance
          if t = .flowEntry || t = .flowSequenceEnd then pure .empty else node fuel false false
        else pure .empty
      return .mapping .none [(k, v)] :: (← flowItems fuel false)
    | _ => do
      let item ← node fuel false false
      return item :: (← flowItems fuel false)
termination_by structural fuel => fuel

/-- The entries up to the closing bracket, with a comma between each two. -/
def flowEntries : Nat → Bool → Composing (List (Node × Node))
  | 0, _ => fail .misfit
  | fuel + 1, first => do
    if (← peek) = .flowMappingEnd then
      skip
      return []
    if !first then
      if (← peek) = .flowEntry then skip else fail .misfit
    match ← peek with
    | .flowMappingEnd => do
      skip
      return []
    | .key => do
      let t ← advance
      let k ←
        if t = .value || t = .flowEntry || t = .flowMappingEnd then pure .empty
        else node fuel false false
      let v ←
        if (← peek) = .value then
          let t ← advance
          if t = .flowEntry || t = .flowMappingEnd then pure .empty else node fuel false false
        else pure .empty
      return (k, v) :: (← flowEntries fuel false)
    | _ => do
      let k ← node fuel false false
      return (k, .empty) :: (← flowEntries fuel false)
termination_by structural fuel => fuel

end

/-- The directives in front of a document: at most one version, which must be a known one, and
handles, each given once. -/
def directives : List Token → Bool → List (String × String) →
    Except Obstruction (List Token × List (String × String))
  | .version major minor :: ts, versioned, handles =>
    if versioned || major ≠ 1 || (minor ≠ 1 && minor ≠ 2) then .error .directive
    else directives ts true handles
  | .handle name lead :: ts, versioned, handles =>
    if (handles.lookup name).isSome then .error .directive
    else directives ts versioned ((name, lead) :: handles)
  | ts, _, handles => .ok (ts, handles)

def commonHandles : List (String × String) := [("!", "!"), ("!!", "tag:yaml.org,2002:")]

def endsDocument : Token → Bool
  | .version .. => true
  | .handle .. => true
  | .documentStart => true
  | .documentEnd => true
  | .streamEnd => true
  | _ => false

end Composing

open Composing in
/-- The only document of a list of tokens; a list without one stands for an empty node. -/
def compose (ts : List Token) : Except Obstruction Node := do
  if ts.headD .streamEnd = .streamEnd then return .empty
  let (rest, handles) ← directives ts false []
  let explicit := rest.headD .streamEnd = .documentStart
  if !explicit && rest.length ≠ ts.length then throw .misfit
  let ts := if explicit then rest.drop 1 else rest
  let (node, s) ←
    if explicit && endsDocument (ts.headD .streamEnd) then
      pure (.empty, ⟨ts, [], []⟩)
    else node (3 * ts.length + 3) true false ⟨ts, handles ++ commonHandles, []⟩
  let rest := s.tokens.dropWhile fun t => t = .documentEnd
  if rest.headD .streamEnd = .streamEnd then return node
  throw .severalDocuments

end RemoteCall.Yaml
