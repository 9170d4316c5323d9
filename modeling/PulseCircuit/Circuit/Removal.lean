import PulseCircuit.Circuit.Edit
import PulseCircuit.Distinct

/-!
# Removing

A removed row is either deleted, and its id can be reused at once, or archived, and its id stays in
use until the archive is purged. Removing a cell removes everything below it, and every wire that
touches any of those cells.
-/

namespace PulseCircuit

/-- What becomes of a removed row and its id. -/
inductive Removal where
  | delete
  | archive
deriving DecidableEq, Repr

namespace Circuit

open Edit

/-- The circuit without the row of an id, if it has one. -/
def retired (removal : Removal) (id : Id) (c : Circuit) : Circuit :=
  match c.live.get? id with
  | none => c
  | some row =>
    match removal with
    | .delete => { c with live := c.live.erase id, ids := c.ids.release id }
    | .archive =>
      { live := c.live.erase id, archive := c.archive.insert id row, ids := c.ids.hold id }

def retire (removal : Removal) (id : Id) : Edit Unit := modify (retired removal id)

/-- Takes a wire out of the lists of both its ends, and returns the ends. The row stays. -/
def detachWire (id : WireId) : Edit (CellId × CellId) := do
  let wire ← ask (·.wire id)
  onCell wire.source fun cell => { cell with outputs := cell.outputs.filter (· ≠ id) }
  onCell wire.target fun cell => { cell with inputs := cell.inputs.filter (· ≠ id) }
  return (wire.source, wire.target)

def removeWire (validate : Bool) (removal : Removal) (id : WireId) : Edit Unit := do
  let (source, target) ← detachWire id
  retire removal id
  validated validate [source, target]

/-- The wires that touch any of the given cells: cell by cell, inputs before outputs. -/
def wiresAt (c : Circuit) (ids : List CellId) : Except Fault (List WireId) := do
  let cells ← ids.mapM c.cell
  return addAllNew [] (cells.flatMap fun cell => cell.inputs ++ cell.outputs)

/-- Removes wires one after the other, and adds to `touched` the ends they have outside `doomed`. -/
def removeWires (removal : Removal) (doomed : List CellId) :
    List WireId → List Id → Edit (List Id)
  | [], touched => return touched
  | id :: ids, touched => do
    let (source, target) ← detachWire id
    retire removal id
    let outside := [source, target].filter fun cell => !doomed.contains cell
    removeWires removal doomed ids (addAllNew touched (outside.map CellId.toId))

/-- Removes a cell with all below it. The cell itself goes last, so that its id is the first to be
reused. -/
def removeCell (validate : Bool) (removal : Removal) (id : CellId) : Edit Unit := do
  let cell ← ask (·.cell id)
  let some parent := cell.parent | throw .rootImmovable
  let doomed ← ask (·.subtree id)
  let wires ← ask (·.wiresAt doomed)
  let touched ← removeWires removal doomed wires [parent]
  onCell parent fun cell => { cell with children := cell.children.filter (· ≠ id) }
  doomed.forM fun cell => retire removal cell
  validated validate touched

def deleteCell (validate : Bool) (id : CellId) : Edit Unit := removeCell validate .delete id

def archiveCell (validate : Bool) (id : CellId) : Edit Unit := removeCell validate .archive id

def deleteWire (validate : Bool) (id : WireId) : Edit Unit := removeWire validate .delete id

def archiveWire (validate : Bool) (id : WireId) : Edit Unit := removeWire validate .archive id

/-- Forgets the archived rows and makes their ids reusable. -/
def purge : Edit (List Id) :=
  modifyGet fun c =>
    let (purged, ids) := c.ids.purge
    (purged, { c with archive := .empty, ids := ids })

end Circuit

end PulseCircuit
