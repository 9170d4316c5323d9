import PulseCircuit.Channel
import PulseCircuit.Decimal.Digits

/-!
# Arguments

What a command line asks for: the name of a command, what it works on, and options. Options have
their value behind an equals sign or in the next argument, are given at most once, and may stand
before or behind everything else. After `--` nothing is an option.
-/

namespace PulseCircuit

inductive Command where
  /-- Runs beats and reports each of them. -/
  | run (scene : String) (beats : Nat) (history : Option Nat)
  /-- Reports the peak of a cell. -/
  | peak (scene cell : String) (colour : Colour) (timing : Timing)
  /-- Checks all rows and counts them. -/
  | check (scene : String)
  /-- Writes the circuit as JSON. -/
  | dump (scene : String)
deriving DecidableEq, Repr

/-- The path of the file a command works on. -/
def Command.scene : Command → String
  | .run scene .. | .peak scene .. | .check scene | .dump scene => scene

structure Invocation where
  validate : Bool
  command : Command
deriving DecidableEq, Repr

/-- The arguments of a command, options and others apart. -/
structure Arguments where
  validate : Bool
  options : List (String × String)
  others : List String

namespace Arguments

def none : Arguments := ⟨false, [], []⟩

/-- An argument that begins with a hyphen is meant as an option. A hyphen alone is not. -/
def isOption (argument : String) : Bool := argument.startsWith "-" && argument ≠ "-"

/-- An option and the value behind its equals sign. -/
def splitValue (argument : String) : String × Option String :=
  let cs := argument.toList
  let name := String.ofList (cs.takeWhile (· ≠ '='))
  match cs.dropWhile (· ≠ '=') with
  | [] => (name, .none)
  | _ :: value => (name, some (String.ofList value))

def addOption? (a : Arguments) (known : List String) (name value : String) : Option Arguments :=
  if known.contains name ∧ (a.options.lookup name).isNone then
    some { a with options := a.options ++ [(name, value)] }
  else .none

/-- Tells options from other arguments, given the options there are. -/
def sort? (known : List String) : List String → Arguments → Option Arguments
  | [], a => some a
  | "--" :: rest, a => some { a with others := a.others ++ rest }
  | "--validate" :: rest, a =>
    if a.validate then .none else sort? known rest { a with validate := true }
  | argument :: rest, a =>
    if isOption argument then
      match splitValue argument, rest with
      | (name, some value), rest => do sort? known rest (← a.addOption? known name value)
      | (name, .none), value :: rest =>
        if isOption value then .none else do sort? known rest (← a.addOption? known name value)
      | (_, .none), [] => .none
    else sort? known rest { a with others := a.others ++ [argument] }

/-- The value of an option, or the usual one if the option is not given. -/
def option? {α : Type} (a : Arguments) (name : String) (usual : α) (read? : String → Option α) :
    Option α :=
  match a.options.lookup name with
  | some value => read? value
  | .none => some usual

end Arguments

namespace Command

/-- A whole number of 64 bits. A plus sign may stand in front. -/
def count? (text : String) : Option Nat :=
  let digits :=
    match text.toList with
    | '+' :: rest => rest
    | rest => rest
  (Decimal.whole? digits).filter (· ≤ 0xffffffffffffffff)

def colour? (text : String) : Option Colour := Colour.all.find? (·.name = text)

def timing? (text : String) : Option Timing := Timing.all.find? (·.name = text)

/-- A path is not empty. -/
def path? (text : String) : Option String := if text = "" then none else some text

/-- The command that works on one file and has no options of its own. -/
def plain? (make : String → Command) (arguments : List String) : Option Invocation := do
  let a ← Arguments.none.sort? [] arguments
  let [scene] := a.others | none
  return ⟨a.validate, make (← path? scene)⟩

def run? (arguments : List String) : Option Invocation := do
  let a ← Arguments.none.sort? ["--beats", "--history"] arguments
  let [scene] := a.others | none
  let beats ← a.option? "--beats" 1 count?
  let history ← a.option? "--history" none fun text => (count? text).map some
  return ⟨a.validate, .run (← path? scene) beats history⟩

def peak? (arguments : List String) : Option Invocation := do
  let a ← Arguments.none.sort? ["--colour", "--timing"] arguments
  let [scene, cell] := a.others | none
  let colour ← a.option? "--colour" .red colour?
  let timing ← a.option? "--timing" .now timing?
  return ⟨a.validate, .peak (← path? scene) cell colour timing⟩

end Command

namespace Invocation

/-- The name of a command and its arguments. -/
def ofCommand? : List String → Option Invocation
  | "run" :: rest => Command.run? rest
  | "peak" :: rest => Command.peak? rest
  | "check" :: rest => Command.plain? .check rest
  | "dump" :: rest => Command.plain? .dump rest
  | _ => none

/-- What a command line asks for, if it is understood. -/
def ofArguments? : List String → Option Invocation
  | "--validate" :: rest => (ofCommand? rest).map ({ · with validate := true })
  | arguments => ofCommand? arguments

end Invocation

end PulseCircuit
