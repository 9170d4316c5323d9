import PulseCircuit.Circuit.Ancestry

/-!
# Consistency

Whether a row agrees with the rows it is linked to. A cell is checked against its parent, its
children, its inputs, its outputs and then its way to the root, a wire against its source and then
its target. The first defect found is the one reported.
-/

namespace PulseCircuit

namespace Circuit

/-- What is wrong between a cell and its parent. -/
def parentDefect? (c : Circuit) (cell : Cell) : Option Defect :=
  match cell.parent with
  | none => if cell.id.isRoot then none else some .lacksParent
  | some parent =>
    if cell.id.isRoot then some .rootHasParent
    else
      match c.cell parent with
      | .error _ => some (.parentMissing parent)
      | .ok above =>
        if above.children.contains cell.id then none else some (.notListedByParent parent)

/-- What is wrong between a cell and a child it lists. -/
def childDefect? (c : Circuit) (cell : Cell) (child : CellId) : Option Defect :=
  match c.cell child with
  | .error _ => some (.childMissing child)
  | .ok below => if below.parent = some cell.id then none else some (.childElsewhere child)

/-- What is wrong between a cell and a wire it lists as ending there. -/
def inputDefect? (c : Circuit) (cell : Cell) (input : WireId) : Option Defect :=
  match c.wire input with
  | .error _ => some (.inputMissing input)
  | .ok wire => if wire.target = cell.id then none else some (.inputEndsAt input wire.target)

/-- What is wrong between a cell and a wire it lists as starting there. -/
def outputDefect? (c : Circuit) (cell : Cell) (output : WireId) : Option Defect :=
  match c.wire output with
  | .error _ => some (.outputMissing output)
  | .ok wire => if wire.source = cell.id then none else some (.outputStartsAt output wire.source)

/-- What is wrong with the way from a cell to the root. -/
def ascentDefect? (c : Circuit) (cell : Cell) : Option Defect :=
  if c.reachesRoot c.size cell.id then none else some .awayFromRoot

/-- The first defect of a cell. -/
def cellDefect? (c : Circuit) (cell : Cell) : Option Defect :=
  c.parentDefect? cell
    <|> cell.children.findSome? (c.childDefect? cell)
    <|> cell.inputs.findSome? (c.inputDefect? cell)
    <|> cell.outputs.findSome? (c.outputDefect? cell)
    <|> c.ascentDefect? cell

/-- What is wrong at the source of a wire. -/
def sourceDefect? (c : Circuit) (wire : Wire) : Option Defect :=
  match c.cell wire.source with
  | .error _ => some (.sourceMissing wire.source)
  | .ok source =>
    if source.outputs.contains wire.id then none else some (.notListedBySource wire.source)

/-- What is wrong at the target of a wire. -/
def targetDefect? (c : Circuit) (wire : Wire) : Option Defect :=
  match c.cell wire.target with
  | .error _ => some (.targetMissing wire.target)
  | .ok target =>
    if target.inputs.contains wire.id then none else some (.notListedByTarget wire.target)

/-- The first defect of a wire. -/
def wireDefect? (c : Circuit) (wire : Wire) : Option Defect :=
  c.sourceDefect? wire <|> c.targetDefect? wire

def rowDefect? (c : Circuit) : Row → Option Defect
  | .cell cell => c.cellDefect? cell
  | .wire wire => c.wireDefect? wire

/-- Checks the row with the given id. -/
def check (c : Circuit) (id : Id) : Except Fault Unit := do
  let row ← c.row id
  match c.rowDefect? row with
  | none => .ok ()
  | some defect => .error (.invalid id defect)

/-- Checks the rows that are live among the given ones, in this order. -/
def checkLive (c : Circuit) (ids : List Id) : Except Fault Unit :=
  (ids.filter c.contains).forM c.check

/-- Checks every row under the id it carries, cells first. -/
def checkAll (c : Circuit) : Except Fault Unit :=
  (c.cells.map (·.id.toId) ++ c.wires.map (·.id.toId)).forM c.check

end Circuit

end PulseCircuit
