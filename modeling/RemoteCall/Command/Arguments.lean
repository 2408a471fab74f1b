import RemoteCall.Command.Basic
import RemoteCall.Text.Blank
import RemoteCall.Text.Cut

/-!
Arguments of the command line. Options stand before the command or behind it, each at most once on
either side unless it may be given many times; after two dashes there are no more options. Asking
for help or for the version ends the reading at once.
-/

namespace RemoteCall.Arguments

open Text (afterStart? splitAt?)

inductive Key
  | verbose
  | json
  | yaml
  | help
  | version
  | output
  | input
  | file
  | email
  | password
  | folder
  deriving DecidableEq

/-- What an option takes: nothing, one value, or a value each of many times. -/
inductive Arity
  | flag
  | single
  | many
  deriving DecidableEq

/-- An option. A path must not be empty. -/
structure Switch where
  key : Key
  long : String
  short : Option Char
  arity : Arity
  isPath : Bool

inductive Refusal
  | help
  | version
  | usage
  deriving DecidableEq

/-! ### One side of the command -/

/-- The options with their values, and the words, in the order that they were given. -/
structure Given where
  options : List (Key × String)
  words : List String

namespace Given

def empty : Given := ⟨[], []⟩

def value? (g : Given) (k : Key) : Option String := g.options.lookup k

def values (g : Given) (k : Key) : List String :=
  (g.options.filter fun o => o.1 = k).map Prod.snd

def has (g : Given) (k : Key) : Bool := (g.value? k).isSome

def take (g : Given) (s : Switch) (value : String) : Except Refusal Given :=
  if s.key = .help then .error .help
  else if s.key = .version then .error .version
  else if (s.arity ≠ .many ∧ g.has s.key) ∨ (s.isPath ∧ value = "") then .error .usage
  else .ok { g with options := g.options ++ [(s.key, value)] }

/-- Takes one-letter options that stand together. The last of them may want its value from the next
argument. -/
def takeShort (known : List Switch) (g : Given) :
    List Char → Except Refusal (Given × Option Switch)
  | [] => .ok (g, none)
  | c :: cs =>
    match known.find? fun s => s.short = some c with
    | none => .error .usage
    | some s =>
      match s.arity, cs with
      | .flag, cs => do takeShort known (← g.take s "") cs
      | _, [] => .ok (g, some s)
      | _, '=' :: value => do return (← g.take s (String.ofList value), none)
      | _, value => do return (← g.take s (String.ofList value), none)

/-- Takes an option with a long name, which may have its value behind it. -/
def takeLong (known : List Switch) (g : Given) (cs : List Char) :
    Except Refusal (Given × Option Switch) :=
  let (name, value) := match splitAt? '=' cs with
    | some (name, value) => (name, some (String.ofList value))
    | none => (cs, none)
  match known.find? fun s => s.long.toList = name with
  | none => .error .usage
  | some s =>
    match s.arity, value with
    | .flag, none => do return (← g.take s "", none)
    | .flag, some _ => .error .usage
    | _, none => .ok (g, some s)
    | _, some value => do return (← g.take s value, none)

end Given

/-- Whether an argument is an option; a dash alone is a word. -/
def isOption (arg : String) : Bool := arg.toList.head? = some '-' && arg ≠ "-"

def takeWords (accepts : Nat → String → Bool) (g : Given) : List String → Except Refusal Given
  | [] => .ok g
  | w :: ws =>
    if accepts g.words.length w then takeWords accepts { g with words := g.words ++ [w] } ws
    else .error .usage

/-- Reads arguments while an option may want its value. Where words are not accepted, the first one
ends the reading, and is left with the rest. -/
def read (known : List Switch) (accepts : Option (Nat → String → Bool)) :
    Option Switch → Given → List String → Except Refusal (Given × List String)
  | none, g, [] => .ok (g, [])
  | some _, _, [] => .error .usage
  | some s, g, arg :: args =>
    if isOption arg then .error .usage
    else do read known accepts none (← g.take s arg) args
  | none, g, arg :: args =>
    if arg = "--" then
      (takeWords (accepts.getD fun _ _ => false) g args).map fun g => (g, [])
    else
      match afterStart? ['-', '-'] arg.toList with
      | some cs => do
        let (g, wanting) ← g.takeLong known cs
        read known accepts wanting g args
      | none =>
        if isOption arg then do
          let (g, wanting) ← g.takeShort known (arg.toList.drop 1)
          read known accepts wanting g args
        else
          match accepts with
          | none => .ok (g, arg :: args)
          | some accept =>
            if accept g.words.length arg then
              read known accepts none { g with words := g.words ++ [arg] } args
            else .error .usage

/-! ### Commands -/

inductive Verb
  | time
  | fortune
  | stats
  | logo
  | call
  | convert
  | version
  | help
  deriving DecidableEq

def Direction.ofName? (name : String) : Option Direction :=
  if name = "json-to-yaml" then some .jsonToYaml
  else if name = "yaml-to-json" then some .yamlToJson
  else none

/-- The options that may stand on both sides of the command. -/
def common : List Switch :=
  [⟨.verbose, "verbose", some 'v', .flag, false⟩, ⟨.json, "json", none, .flag, false⟩,
   ⟨.yaml, "yaml", none, .flag, false⟩, ⟨.help, "help", some 'h', .flag, false⟩]

namespace Verb

def all : List (String × Verb) :=
  [("time", .time), ("fortune", .fortune), ("stats", .stats), ("logo", .logo), ("call", .call),
   ("convert", .convert), ("version", .version), ("help", .help)]

def ofName? (name : String) : Option Verb := all.lookup name

def own : Verb → List Switch
  | .logo => [⟨.output, "output", some 'o', .single, true⟩]
  | .call =>
    [⟨.input, "input", some 'i', .single, false⟩, ⟨.file, "file", some 'f', .many, true⟩,
     ⟨.email, "email", none, .single, false⟩, ⟨.password, "password", none, .single, false⟩,
     ⟨.folder, "dir", some 'd', .single, true⟩]
  | _ => []

def accepts : Verb → Nat → String → Bool
  | .call, 0, _ => true
  | .convert, 0, w => (Direction.ofName? w).isSome
  | .convert, 1, w => w ≠ ""
  | _, _, _ => false

/-- Whom to log in as; there is no email without a password, nor the other way round. -/
def login (g : Given) : Except Refusal (Option Login) :=
  match g.value? .email, g.value? .password with
  | some email, some password => .ok (some ⟨email, password⟩)
  | none, none => .ok none
  | _, _ => .error .usage

def command (v : Verb) (g : Given) : Except Refusal Command :=
  match v, g.words with
  | .time, _ => .ok .time
  | .fortune, _ => .ok .fortune
  | .stats, _ => .ok .stats
  | .version, _ => .ok .version
  | .help, _ => .error .help
  | .logo, _ => .ok (.logo (g.value? .output))
  | .call, [func] => do
    return .call
      ⟨func, g.value? .input, g.values .file, ← login g, (g.value? .folder).getD "."⟩
  | .convert, direction :: path =>
    match Direction.ofName? direction with
    | some d => .ok (.convert d path.head?)
    | none => .error .usage
  | _, _ => .error .usage

end Verb

/-- Two ways to show results exclude each other on one side. -/
def check (g : Given) : Except Refusal PUnit :=
  if g.has .json && g.has .yaml then .error .usage else .ok ⟨⟩

def mode (gs : List Given) : Mode :=
  if gs.any (·.has .json) then .json else if gs.any (·.has .yaml) then .yaml else .human

def help : List String → Refusal
  | [] => .help
  | [name] => if (Verb.ofName? name).isSome then .help else .usage
  | _ => .usage

def parse (args : List String) : Except Refusal Order := do
  let (before, rest) ←
    read (⟨.version, "version", some 'V', .flag, false⟩ :: common) none none .empty args
  match rest with
  | [] =>
    check before
    return ⟨mode [before], .greeting⟩
  | name :: args =>
    match Verb.ofName? name with
    | none => throw .usage
    | some .help => throw (help args)
    | some v =>
      let (behind, _) ← read (v.own ++ common) (some v.accepts) none .empty args
      let command ← v.command behind
      check behind
      check before
      return ⟨mode [before, behind], command⟩

end RemoteCall.Arguments
