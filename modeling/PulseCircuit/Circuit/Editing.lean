import PulseCircuit.Circuit.Edit

/-!
# Creating and changing

New cells and wires, stored pulses, tags, and changes to cells and wires. Whoever moves an end of a
link changes the lists on both sides of it. With `validate` each edit ends with a check of the rows
it touched.
-/

namespace PulseCircuit

namespace Circuit

open Edit

/-! ## Creating -/

/-- A new cell below `parent`, last among its children. -/
def createCell (validate : Bool) (parent : CellId) (kind : CellKind) (position : Position) :
    Edit CellId := do
  let _ ← ask (·.cell parent)
  let id ← takeCellId
  putRow id (.cell (.fresh id (some parent) kind position))
  onCell parent fun cell => { cell with children := cell.children ++ [id] }
  validated validate [id, parent]
  return id

/-- A new wire, last among the outputs of its source and the inputs of its target. -/
def createWire (validate : Bool) (source target : CellId) (colour : ColourFilter)
    (timing : Timing) : Edit WireId := do
  let _ ← ask (·.cell source)
  let _ ← ask (·.cell target)
  let id ← takeWireId
  putRow id (.wire ⟨id, source, target, colour, timing⟩)
  onCell source fun cell => { cell with outputs := cell.outputs ++ [id] }
  onCell target fun cell => { cell with inputs := cell.inputs ++ [id] }
  validated validate [id, source, target]
  return id

/-! ## Pulses and tags -/

/-- Stores a pulse on a cell, or removes the one stored there. -/
def setPulse (validate : Bool) (id : CellId) (colour : Colour) (pulse : Option Pulse) :
    Edit Unit := do
  onCell id fun cell => { cell with fire := cell.fire.set colour pulse }
  validated validate [id]

def fire (validate : Bool) (id : CellId) (colour : Colour) (pulse : Pulse) : Edit Unit :=
  setPulse validate id colour (some pulse)

/-- Fires a cell from outside, which stores a raw pulse. -/
def fireCell (validate : Bool) (id : CellId) (colour : Colour) : Edit Unit :=
  fire validate id colour .raw

def clearFire (validate : Bool) (id : CellId) (colour : Colour) : Edit Unit :=
  setPulse validate id colour none

def tagCell (validate : Bool) (id : CellId) (tag : CellTag) : Edit Unit := do
  onCell id (·.tag tag)
  validated validate [id]

/-- The circuit without any tag. -/
def withoutTags (c : Circuit) : Circuit :=
  { c with
    live := c.live.map fun _ row =>
      match row with
      | .cell cell => .cell { cell with tags := [] }
      | .wire wire => .wire wire }

def clearTags : Edit Unit := modify withoutTags

/-! ## Changing cells -/

/-- Moves a cell below another parent and returns the old one. The root stays where it is, and no
cell may come to lie below itself. -/
def reparent (id parent : CellId) : Edit CellId := do
  let cell ← ask (·.cell id)
  let some old := cell.parent | throw .rootImmovable
  let _ ← ask (·.cell parent)
  let below ← ask (·.subtree id)
  if below.contains parent then throw (.cyclicParent id parent)
  if old = parent then return old
  onCell old fun cell => { cell with children := cell.children.filter (· ≠ id) }
  onCell parent fun cell => { cell with children := cell.children ++ [id] }
  onCell id fun cell => { cell with parent := some parent }
  return old

/-- Moves a cell if a parent is given, and says which parents that touched. -/
def reparent? (id : CellId) : Option CellId → Edit (List Id)
  | none => return []
  | some parent => do
    let old ← reparent id parent
    return [old, parent]

def modifyCell (validate : Bool) (id : CellId) (patch : CellPatch) : Edit Unit := do
  let parents ← reparent? id patch.parent
  onCell id (·.restyle patch)
  validated validate (id :: parents)

/-! ## Changing wires -/

/-- Moves the source of a wire if another cell is given, and says which cells that touched. -/
def moveSource (id : WireId) (old : CellId) : Option CellId → Edit (List Id)
  | none => return []
  | some source => do
    if source = old then return []
    let _ ← ask (·.cell source)
    onCell old fun cell => { cell with outputs := cell.outputs.filter (· ≠ id) }
    onCell source fun cell => { cell with outputs := cell.outputs ++ [id] }
    onWire id fun wire => { wire with source := source }
    return [old, source]

/-- Moves the target of a wire if another cell is given, and says which cells that touched. -/
def moveTarget (id : WireId) (old : CellId) : Option CellId → Edit (List Id)
  | none => return []
  | some target => do
    if target = old then return []
    let _ ← ask (·.cell target)
    onCell old fun cell => { cell with inputs := cell.inputs.filter (· ≠ id) }
    onCell target fun cell => { cell with inputs := cell.inputs ++ [id] }
    onWire id fun wire => { wire with target := target }
    return [old, target]

def modifyWire (validate : Bool) (id : WireId) (patch : WirePatch) : Edit Unit := do
  let wire ← ask (·.wire id)
  let sources ← moveSource id wire.source patch.source
  let targets ← moveTarget id wire.target patch.target
  onWire id (·.restyle patch)
  validated validate (id.toId :: (sources ++ targets))

end Circuit

end PulseCircuit
