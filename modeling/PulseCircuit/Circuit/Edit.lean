import PulseCircuit.Circuit.Consistency

/-!
# Edits

An edit runs on a circuit and ends with a result or with a fault, and in both cases with a circuit:
what was changed before a fault stays changed. The order of look-ups and changes in an edit is
therefore part of what it does.

This module has the small edits of which the others are made.
-/

namespace PulseCircuit

abbrev Edit := EStateM Fault Circuit

namespace Edit

/-- Asks the circuit without changing it. -/
def ask {α : Type} (question : Circuit → Except Fault α) : Edit α := fun c =>
  match question c with
  | .ok answer => .ok answer c
  | .error fault => .error fault c

/-- Puts a row under an id. -/
def putRow (id : Id) (row : Row) : Edit Unit :=
  modify fun c => { c with live := c.live.insert id row }

/-- Changes a cell that has to be there. -/
def onCell (id : CellId) (change : Cell → Cell) : Edit Unit := do
  let cell ← ask (·.cell id)
  modify fun c => { c with live := c.live.update id fun _ => .cell (change cell) }

/-- Changes a wire that has to be there. -/
def onWire (id : WireId) (change : Wire → Wire) : Edit Unit := do
  let wire ← ask (·.wire id)
  modify fun c => { c with live := c.live.update id fun _ => .wire (change wire) }

def takeCellId : Edit CellId :=
  modifyGet fun c => let (id, ids) := c.ids.takeCell; (id, { c with ids := ids })

def takeWireId : Edit WireId :=
  modifyGet fun c => let (id, ids) := c.ids.takeWire; (id, { c with ids := ids })

/-- If edits are to be validated, checks the rows an edit touched that are still live. -/
def validated (validate : Bool) (touched : List Id) : Edit Unit :=
  if validate then ask (·.checkLive touched) else pure ()

end Edit

end PulseCircuit
