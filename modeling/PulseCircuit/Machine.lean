import PulseCircuit.Circuit.Application
import PulseCircuit.Circuit.Removal
import PulseCircuit.Evaluator
import PulseCircuit.Ledger

/-!
# Machines

A machine drives a circuit beat by beat. In each beat every cell is asked in every colour whether
it fires, the operations of the answers are carried out, and the circuit moves on by one projected
tick. The circuit as it stood before moving on is remembered as the nearest past, so later questions
about the past see what really happened.
-/

namespace PulseCircuit

/-- What one beat did. -/
structure BeatReport where
  beat : Nat
  /-- The cells that fired in some colour, oldest first. -/
  firing : List CellId
  /-- The operations that changed the circuit. -/
  operations : List Operation
  /-- The cells that answered a ping. -/
  pongs : List CellId
  stats : EvalStats
deriving DecidableEq, Repr

structure Machine where
  validate : Bool
  circuit : Circuit
  /-- The number of beats run, including those that failed. -/
  beats : Nat
  /-- Circuits of earlier beats, latest first. -/
  history : List Circuit
  historyLimit : Nat
  ledger : Ledger

abbrev Run := EStateM Fault Machine

namespace Machine

/-- How many earlier circuits a machine remembers unless told otherwise. -/
def defaultHistory : Nat := 8

def ofCircuit (validate : Bool) (c : Circuit) : Machine where
  validate := validate
  circuit := c
  beats := 0
  history := []
  historyLimit := defaultHistory
  ledger := .empty

/-- An evaluator for the circuit and what is remembered of its past. -/
def evaluator (m : Machine) : Evaluator := .ofHistory m.validate m.circuit m.history []

def peak (m : Machine) (id : CellId) (colour : Colour) (timing : Timing) : Except Fault Peak :=
  (Evaluator.peak id colour timing).answer m.evaluator

def isFiring (m : Machine) (id : CellId) : Except Fault Bool :=
  (Evaluator.isFiring id).answer m.evaluator

/-- Remembers at most so many earlier circuits from now on. -/
def setHistoryLimit (m : Machine) (limit : Nat) : Machine :=
  { m with historyLimit := limit, history := m.history.take limit }

def enableLedger (m : Machine) : Machine := { m with ledger := m.ledger.enable }

/-! ## Changing the circuit -/

/-- Runs an edit on the circuit. -/
def editing {α : Type} (edit : Edit α) : Run α := fun m =>
  match edit m.circuit with
  | .ok a c => .ok a { m with circuit := c }
  | .error fault c => .error fault { m with circuit := c }

/-- Fires a cell from outside, for the next beat to see. -/
def fire (id : CellId) (colour : Colour) : Run Unit := do
  editing (Circuit.fireCell (← get).validate id colour)
  modify fun m => { m with ledger := m.ledger.record m.beats (.fired id colour) }

/-! ## Beats -/

/-- The cells that fire, and the operations of all answers without repetition. -/
structure Harvest where
  firing : List CellId
  operations : List Operation

/-- Asks about one cell in the given colours. Says whether one of them fires it. -/
def harvestCell (id : CellId) : List Colour → Bool → List Operation →
    Evaluation (Bool × List Operation)
  | [], fired, operations => return (fired, operations)
  | colour :: colours, fired, operations => do
    let peak ← Evaluator.peak id colour .now
    if peak.isSuccess then
      harvestCell id colours true (addAllNew operations peak.operations)
    else harvestCell id colours fired operations

/-- Asks about cells one after the other, each in all colours. -/
def harvest : List CellId → Harvest → Evaluation Harvest
  | [], gathered => return gathered
  | id :: ids, gathered => do
    let (fired, operations) ← harvestCell id Colour.all false gathered.operations
    let firing := if fired then gathered.firing ++ [id] else gathered.firing
    harvest ids ⟨firing, operations⟩

/-- Asks about every cell of the circuit with one evaluator. -/
def harvestAll : Run (Harvest × EvalStats) := fun m =>
  match harvest (m.circuit.cells.map (·.id)) ⟨[], []⟩ m.evaluator with
  | .ok gathered e => .ok (gathered, e.stats) m
  | .error fault _ => .error fault m

/-- Moves on by one projected tick, and remembers the circuit as it was. -/
def moveOn : Run Unit := fun m =>
  match m.circuit.project m.validate with
  | .ok projected =>
    .ok () { m with circuit := projected, history := (m.circuit :: m.history).take m.historyLimit }
  | .error fault => .error fault m

/-- Runs one beat. -/
def beat : Run BeatReport := do
  modify fun m => { m with beats := m.beats + 1 }
  let (gathered, stats) ← harvestAll
  editing Circuit.clearTags
  let applied ← editing (Circuit.applyAll (← get).validate gathered.operations)
  modify fun m =>
    { m with
      ledger := (m.ledger.recordAll m.beats (applied.operations.map .applied)).recordAll m.beats
        (applied.pongs.map .pong) }
  moveOn
  return ⟨(← get).beats, gathered.firing, applied.operations, applied.pongs, stats⟩

/-- Runs beats one after the other. The first that fails ends the run. -/
def run : Nat → Run (List BeatReport)
  | 0 => return []
  | count + 1 => do
    let report ← beat
    return report :: (← run count)

end Machine

end PulseCircuit
