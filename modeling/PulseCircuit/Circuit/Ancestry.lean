import PulseCircuit.Circuit.Basic

/-!
# Up and down the tree of cells

Two walks along the links between parents and children. Nothing but the circuit itself promises
that these links form a tree, so each walk counts its steps.
-/

namespace PulseCircuit

namespace Circuit

/-! ## Upwards -/

/-- Looks for a pulse on the given cell and on the cells above it. The climb that started at
`origin` gives up when it has passed more cells than the circuit has rows. -/
def climbToLit (c : Circuit) (origin : CellId) : Nat → Option CellId → Except Fault Bool
  | _, none => .ok false
  | fuel, some id => do
    let cell ← c.cell id
    if cell.fire.isLit then .ok true
    else
      match fuel with
      | 0 => .error (.invalid origin .awayFromRoot)
      | fuel + 1 => c.climbToLit origin fuel cell.parent

/-- Some cell strictly above this one holds a pulse. -/
def litAbove (c : Circuit) (id : CellId) : Except Fault Bool := do
  let cell ← c.cell id
  c.climbToLit id c.size cell.parent

/-- Following parents leads to the root within the given number of steps. -/
def reachesRoot (c : Circuit) : Nat → CellId → Bool
  | fuel, id =>
    id.isRoot ||
      match fuel with
      | 0 => false
      | fuel + 1 =>
        match c.cell id with
        | .ok { parent := some parent, .. } => c.reachesRoot fuel parent
        | _ => false

/-! ## Downwards -/

/-- A cell on the stack of a walk: still to be opened, or opened already and to be listed. -/
inductive Visit where
  | enter (id : CellId)
  | leave (id : CellId)
deriving DecidableEq, Repr

/-- Works a stack off, listing each cell once everything below it is listed. -/
def walk (c : Circuit) (origin : CellId) :
    Nat → List Visit → List CellId → Except Fault (List CellId)
  | _, [], listed => .ok listed
  | 0, _ :: _, _ => .error (.endless origin)
  | fuel + 1, .leave id :: stack, listed => c.walk origin fuel stack (listed ++ [id])
  | fuel + 1, .enter id :: stack, listed => do
    let cell ← c.cell id
    c.walk origin fuel (cell.children.map .enter ++ .leave id :: stack) listed

/-- Enough steps for every walk that ends: each path down from a cell takes two steps, has no cell
twice, and chooses a listed child at each turn. -/
def walkBound (c : Circuit) : Nat :=
  let links := c.cells.foldl (fun links cell => links + cell.children.length) 0
  2 * Nat.pow (links + 1) (c.size + 1)

/-- The cell and everything below it, children before their parents. -/
def subtree (c : Circuit) (id : CellId) : Except Fault (List CellId) :=
  c.walk id c.walkBound [.enter id] []

end Circuit

end PulseCircuit
