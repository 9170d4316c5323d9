import PulseCircuit.Circuit.Editing

/-!
# Small circuits built by rule

Chains, rings, lattices and groups of any size. Each is an edit of the initial circuit and returns
the ids of the cells it is about.
-/

namespace PulseCircuit

namespace Topology

/-- A cell below the root, or below `parent`, at a place on the grid. -/
def place (validate : Bool) (parent : CellId) (kind : CellKind) (x y : Nat) : Edit CellId :=
  Circuit.createCell validate parent kind ⟨Float.ofNat x, Float.ofNat y⟩

/-- An untimed wire for all colours. -/
def join (validate : Bool) (source target : CellId) (timing : Timing) : Edit Unit := do
  let _ ← Circuit.createWire validate source target .any timing

/-- Cells in a row, each wired to the one before it as it is made. `y` is their common height. -/
def row (validate : Bool) (parent : CellId) (y : Nat) :
    List CellKind → Nat → Option CellId → Edit (List CellId)
  | [], _, _ => return []
  | kind :: kinds, x, previous => do
    let cell ← place validate parent kind x y
    if let some previous := previous then join validate previous cell .now
    return cell :: (← row validate parent y kinds (x + 1) (some cell))

/-- Cells of the given kinds, wired one after the other. -/
def chain (validate : Bool) (kinds : List CellKind) : Edit (List CellId) :=
  row validate .root 0 kinds 0 none

/-- Two relays that feed each other from the tick before. -/
def feedbackPair (validate : Bool) : Edit (CellId × CellId) := do
  let a ← place validate .root .relay 0 0
  let b ← place validate .root .relay 1 0
  join validate a b .future
  join validate b a .future
  return (a, b)

/-- Two relays in a loop, and a third that feeds the first of them. -/
def fedCycle (validate : Bool) : Edit (List CellId) := do
  let a ← place validate .root .relay 1 0
  let b ← place validate .root .relay 2 0
  let feeder ← place validate .root .relay 0 0
  join validate a b .now
  join validate b a .now
  join validate feeder a .now
  return [a, b, feeder]

/-- A ring of relays whose wires all have the same timing. -/
def ring (validate : Bool) (length : Nat) (timing : Timing) : Edit (List CellId) := do
  let cells ← (List.range length).mapM fun x => place validate .root .relay x 0
  (cells.zip (cells.rotateLeft 1)).forM fun (cell, next) => join validate cell next timing
  return cells

/-- Every cell of one layer feeds every cell of the next. -/
def joinLayers (validate : Bool) (sources targets : List CellId) : Edit Unit :=
  sources.forM fun source => targets.forM fun target => join validate source target .now

/-- Layers of relays between a source and a sink, `depth` of them, each `width` wide. -/
def lattice (validate : Bool) (width depth : Nat) : Edit (CellId × CellId) := do
  let source ← place validate .root .relay 0 0
  let last ← (List.range depth).foldlM
    (fun layer d => do
      let next ← (List.range width).mapM fun w => place validate .root .relay (d + 1) w
      joinLayers validate layer next
      return next)
    [source]
  let sink ← place validate .root .recording (depth + 1) 0
  joinLayers validate last [sink]
  return (source, sink)

/-- A group, and in it a row of relays wired one after the other. -/
def nestedGroup (validate : Bool) (length : Nat) : Edit (CellId × List CellId) := do
  let group ← place validate .root .relay 0 0
  return (group, ← row validate group 1 (List.replicate length .relay) 0 none)

end Topology

end PulseCircuit
