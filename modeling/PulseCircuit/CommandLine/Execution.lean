import PulseCircuit.CommandLine.Arguments
import PulseCircuit.Format.Report
import PulseCircuit.Scene.Load

/-!
# Executing commands

What a command prints and whether it succeeds. Lines printed before a failure stay printed.
-/

namespace PulseCircuit

open Json

/-- The end of a command. -/
structure Outcome where
  lines : List String
  /-- If the command failed, what went wrong and then the causes. -/
  failure : Option (List String)
deriving DecidableEq, Repr

namespace Outcome

def line (text : String) : Outcome := ⟨[text], none⟩

def failed (messages : List String) : Outcome := ⟨[], some messages⟩

/-- The exit code. -/
def code (outcome : Outcome) : Nat := if outcome.failure.isSome then 1 else 0

end Outcome

namespace Command

/-- Runs so many beats, up to the first that fails. -/
def runBeats : Nat → Machine → Outcome
  | 0, _ => ⟨[], none⟩
  | count + 1, m =>
    match Machine.beat m with
    | .ok report m =>
      let rest := runBeats count m
      { rest with lines := report.toJson :: rest.lines }
    | .error fault _ => .failed [fault.message]

def runOn (validate : Bool) (n : NamedCircuit) (beats : Nat) (history : Option Nat) : Outcome :=
  let m := Machine.ofCircuit validate n.circuit
  runBeats beats <|
    match history with
    | some limit => m.setHistoryLimit limit
    | none => m

def peakOn (validate : Bool) (n : NamedCircuit) (cell : String) (colour : Colour)
    (timing : Timing) : Outcome :=
  match n.resolve cell with
  | .error e => .failed e.messages
  | .ok id =>
    match Evaluator.peak id colour timing (.ofHistory validate n.circuit [] []) with
    | .error fault _ => .failed ["peak of " ++ SceneError.quoted cell, fault.message]
    | .ok answer e =>
      .line <| Value.text <| .object
        [("cell", .string cell),
          ("colour", Colour.codec.encode colour),
          ("peak", Peak.codec.encode answer),
          ("stats", e.stats.toValue)]

/-- The number of cells among the given ones that fire. -/
def countFiring : List Cell → Evaluation Nat
  | [] => return 0
  | cell :: cells => do
    let fires ← Evaluator.isFiring cell.id
    return (← countFiring cells) + if fires then 1 else 0

def checkOn (validate : Bool) (n : NamedCircuit) (path : String) : Outcome :=
  match n.circuit.checkAll with
  | .error fault => .failed [path ++ " is inconsistent", fault.message]
  | .ok () =>
    match (countFiring n.circuit.cells).answer (.ofHistory validate n.circuit [] []) with
    | .error fault => .failed [fault.message]
    | .ok firing =>
      .line <| Value.text <| .object
        [("cells", .int n.circuit.cells.length),
          ("wires", .int n.circuit.wires.length),
          ("firing", .int firing)]

def executeOn (validate : Bool) (n : NamedCircuit) : Command → Outcome
  | .run _ beats history => runOn validate n beats history
  | .peak _ cell colour timing => peakOn validate n cell colour timing
  | .check path => checkOn validate n path
  | .dump _ => .line n.circuit.toJson

end Command

/-- Executes a command, given what its file holds, if it can be read. -/
def Invocation.execute (invocation : Invocation) (content : Option String) : Outcome :=
  match NamedCircuit.load invocation.validate invocation.command.scene content with
  | .ok n => invocation.command.executeOn invocation.validate n
  | .error e => .failed e.messages

end PulseCircuit
