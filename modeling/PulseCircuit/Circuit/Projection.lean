import PulseCircuit.Circuit.Consistency

/-!
# Projection

The circuit one tick away when nothing comes from outside: only pulses below a lit cell stay. It is
the same for the tick before and the tick after.
-/

namespace PulseCircuit

namespace Circuit

/-- The ids of the lit cells that lie below another lit cell. -/
def sheltered (c : Circuit) : Except Fault (List CellId) := do
  let cells ← c.cells.filterM fun cell =>
    if cell.fire.isLit then c.litAbove cell.id else .ok false
  return cells.map (·.id)

/-- The circuit with pulses on the given cells only. -/
def keepPulses (c : Circuit) (kept : List CellId) : Circuit :=
  { c with
    live := c.live.map fun _ row =>
      match row with
      | .cell cell => .cell (if kept.contains cell.id then cell else { cell with fire := .none })
      | .wire wire => .wire wire }

def project (validate : Bool) (c : Circuit) : Except Fault Circuit := do
  let projected := c.keepPulses (← c.sheltered)
  if validate then projected.checkAll
  return projected

/-! ## Ways to spread that have no rules yet -/

/-- Advancing every cell of one layer by a beat. -/
def advanceLayer (_ : Circuit) : Except Fault Circuit := .error (.unimplemented .wholeLayer)

/-- Advancing a layer together with all layers inside it. -/
def advanceDeep (_ : Circuit) : Except Fault Circuit := .error (.unimplemented .nestedLayers)

/-- Pushing one colour through every wire at once. -/
def fanOut (_ : Circuit) (_ : Colour) : Except Fault Circuit := .error (.unimplemented .fanOut)

end Circuit

end PulseCircuit
