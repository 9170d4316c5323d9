import PulseCircuit.Folding
import PulseCircuit.Timeline

/-!
# Evaluating peaks

A question about the present folds the inputs of a cell, asking the same question of their sources.
A question about the past or the future steps to the next tick, which is imagined by projection if
it was not recorded. Wires are walked from target to source, so a wire's timing is turned round.

Two things keep the walk finite.

* A peak is remembered under its tick, cell and colour. While it is still being computed it is
  pending, and asking for it again finds nothing: a pulse cannot support itself.
* A projected circuit that equals the one it was projected from, or the one on the other side of
  that, shows nothing new. The tick is a dead end, and a question about it finds nothing.

A peak that was computed while a pending one *further out* was asked for again holds for this walk
only. Such a peak is tainted and not remembered, so what is remembered does not depend on the order
of questions.
-/

namespace PulseCircuit

/-- What is remembered and pending is found under a tick, a cell and a colour. -/
structure MemoKey where
  offset : Int
  cell : CellId
  colour : Colour
deriving DecidableEq, Repr

inductive Memo where
  /-- Being computed, with this many computations around it. -/
  | pending (depth : Nat)
  | done (peak : Peak)
deriving DecidableEq, Repr

/-- What an evaluator did in its lifetime. -/
structure EvalStats where
  /-- Peaks computed for cells that exist. -/
  computed : Nat
  memoHits : Nat
  projections : Nat
  /-- Projections that showed nothing new. -/
  fixedPoints : Nat
  /-- The largest distance of an imagined tick from the present. -/
  deepest : Nat
deriving DecidableEq, Repr

structure Evaluator where
  validate : Bool
  timeline : Timeline
  memo : Table MemoKey Memo
  /-- The number of computations going on. -/
  depth : Nat
  /-- The outermost pending depth that was asked for again. -/
  reentered : Option Nat
  deadEnds : List Int
  stats : EvalStats

abbrev Evaluation := EStateM Fault Evaluator

namespace Evaluator

/-- An evaluator for a circuit with recorded ticks, nearest first. -/
def ofHistory (validate : Bool) (present : Circuit) (past future : List Circuit) :
    Evaluator where
  validate := validate
  timeline := .ofHistory present past future
  memo := .empty
  depth := 0
  reentered := none
  deadEnds := []
  stats := ⟨0, 0, 0, 0, 0⟩

/-- Uses a result that does not depend on the evaluator. -/
def given {α : Type} : Except Fault α → Evaluation α
  | .ok a => pure a
  | .error fault => throw fault

def count (change : EvalStats → EvalStats) : Evaluation Unit :=
  modify fun e => { e with stats := change e.stats }

/-! ## Remembering -/

/-- The outer one of two depths, where there are any. -/
def outermost : Option Nat → Option Nat → Option Nat
  | some a, some b => some (min a b)
  | a, b => a <|> b

/-- A computation begins: its key is pending, and nothing has been asked for again yet. -/
def enter (e : Evaluator) (key : MemoKey) : Evaluator :=
  { e with memo := e.memo.insert key (.pending e.depth), depth := e.depth + 1, reentered := none }

/-- The pending depth outside `depth` that a computation asked for again. -/
def taint (depth : Nat) (reentered : Option Nat) : Option Nat := reentered.filter (· < depth)

/-- A computation ends that began at `depth`, and one less is going on. Its peak is remembered unless
it is tainted, and what it asked for again is added to what the computations around it asked for. -/
def leave (e : Evaluator) (key : MemoKey) (depth : Nat) (outer : Option Nat)
    (peak : Option Peak) : Evaluator :=
  let tainted := taint depth e.reentered
  { e with
    depth := e.depth - 1
    reentered := outermost outer tainted
    memo :=
      match peak, tainted with
      | some peak, none => e.memo.insert key (.done peak)
      | _, _ => e.memo.erase key }

/-- Runs the computation for a key between its beginning and its end. -/
def computing (key : MemoKey) (body : Evaluation Peak) : Evaluation Peak := fun e =>
  match body (e.enter key) with
  | .ok peak e' => .ok peak (e'.leave key e.depth e.reentered (some peak))
  | .error fault e' => .error fault (e'.leave key e.depth e.reentered none)

/-- A pending key is asked for again. -/
def reenter (depth : Nat) : Evaluation Unit :=
  modify fun e => { e with reentered := outermost e.reentered (some depth) }

/-! ## Walking

The walk is one function, `peakNow`, cut into steps that take the rest of the walk as an
argument. -/

/-- How a step asks for the peak of a cell in a tick. -/
abbrev Ask := Int → CellId → Colour → Evaluation Peak

/-- Imagines the tick `offset + step` next to `current`. Says whether it shows anything new. -/
def imagineNext (offset step : Int) (current : Circuit) : Evaluation Bool := do
  let projected ← given (current.project (← get).validate)
  count fun s => { s with projections := s.projections + 1 }
  let behind := (← get).timeline.frame? (offset - step)
  if projected.sameState current || behind.any (projected.sameState ·.circuit) then
    count fun s => { s with fixedPoints := s.fixedPoints + 1 }
    modify fun e => { e with deadEnds := (offset + step) :: e.deadEnds }
    return false
  else
    modify fun e => { e with timeline := e.timeline.imagine (offset + step) projected }
    count fun s => { s with deepest := max s.deepest (offset + step).natAbs }
    return true

/-- The peak of a cell one step before or after a tick. -/
def directedPeak (ask : Ask) (offset : Int) (id : CellId) (colour : Colour) (step : Int) :
    Evaluation Peak := do
  let e ← get
  if e.deadEnds.contains (offset + step) then return .nothing
  if e.timeline.contains (offset + step) then return ← ask (offset + step) id colour
  match e.timeline.frame? offset with
  | none => return .nothing
  | some current =>
    if ← imagineNext offset step current.circuit then ask (offset + step) id colour
    else return .nothing

/-- The peak of a cell at a timing relative to a tick. -/
def peakAt (ask : Ask) (offset : Int) (id : CellId) (colour : Colour) (timing : Timing) :
    Evaluation Peak :=
  match timing with
  | .now => ask offset id colour
  | .past | .future => directedPeak ask offset id colour timing.step

/-- Folds the input wires of a cell in order, up to a final peak. -/
def foldInputs (ask : Ask) (c : Circuit) (offset : Int) (target : Cell) (colour : Colour) :
    List WireId → Peak → Evaluation Peak
  | [], peak => return peak
  | input :: inputs, peak => do
    let wire ← given (c.wire input)
    if wire.colour.admits colour then
      let source ← given (c.cell wire.source)
      let next ← peakAt ask offset source.id colour wire.timing.flip
      let folded := peak.fold next ⟨source, target, wire⟩
      if folded.isFinal then return folded
      foldInputs ask c offset target colour inputs folded
    else foldInputs ask c offset target colour inputs peak

/-- The peak of a cell in a tick: what is stored there, or what its inputs bring. A cell that the
present does not have is a fault, one that another tick does not have does not fire there. -/
def computeNow (ask : Ask) (offset : Int) (id : CellId) (colour : Colour) : Evaluation Peak := do
  match (← get).timeline.frame? offset with
  | none => return .nothing
  | some frame =>
    match frame.circuit.cell id with
    | .error (.notFound missing) =>
      if offset = 0 then throw (.notFound missing) else return .nothing
    | .error fault => throw fault
    | .ok target =>
      count fun s => { s with computed := s.computed + 1 }
      let stored := Peak.ofPulse? (target.fire.get colour) []
      if stored.isFinal then return stored
      foldInputs ask frame.circuit offset target colour target.inputs stored

/-- The peak of a cell in a tick, remembered, pending or computed. The walk may go `fuel` cells
deep. -/
def peakNow : Nat → Ask
  | 0, _, id, _ => throw (.endless id)
  | fuel + 1, offset, id, colour => do
    let key : MemoKey := ⟨offset, id, colour⟩
    match (← get).memo.get? key with
    | some (.done peak) =>
      count fun s => { s with memoHits := s.memoHits + 1 }
      return peak
    | some (.pending depth) =>
      reenter depth
      return .nothing
    | none => computing key (computeNow (peakNow fuel) offset id colour)

/-! ## Questions -/

/-- Deep enough for every walk that ends. A walk is pending under different keys at each depth, so
it is no deeper than there are cells in all ticks it can reach; and in each direction only a few
more ticks than there are rows differ in what they show. -/
def depthBound (e : Evaluator) : Nat :=
  (e.timeline.frames.size + 4 * e.timeline.width + 4) * (e.timeline.width + 2)

/-- The peak of a cell of the present circuit, at a timing relative to the present. -/
def peak (id : CellId) (colour : Colour) (timing : Timing) : Evaluation Peak := do
  let e ← get
  match e.timeline.frame? 0 with
  | none => throw (.notFound id)
  | some present =>
    let _ ← given (present.circuit.cell id)
    peakAt (peakNow e.depthBound) 0 id colour timing

/-- Some of the colours fires the cell. They are asked for in order, up to the first that does. -/
def firesInSome (id : CellId) : List Colour → Evaluation Bool
  | [] => return false
  | colour :: colours => do
    if (← peak id colour .now).isSuccess then return true
    firesInSome id colours

/-- The cell fires now in some colour. -/
def isFiring (id : CellId) : Evaluation Bool := firesInSome id Colour.all

end Evaluator

/-- The answer an evaluation gives when it starts from the given evaluator. -/
def Evaluation.answer {α : Type} (question : Evaluation α) (e : Evaluator) : Except Fault α :=
  match question e with
  | .ok a _ => .ok a
  | .error fault _ => .error fault

namespace Circuit

/-- The peak of a cell, asked with a fresh evaluator. -/
def getPeak (validate : Bool) (c : Circuit) (id : CellId) (colour : Colour) (timing : Timing)
    (past future : List Circuit) : Except Fault Peak :=
  (Evaluator.peak id colour timing).answer (.ofHistory validate c past future)

/-- Whether a cell fires now, asked with a fresh evaluator. -/
def isFiring (validate : Bool) (c : Circuit) (id : CellId) : Except Fault Bool :=
  (Evaluator.isFiring id).answer (.ofHistory validate c [] [])

end Circuit

end PulseCircuit
