import PulseCircuit.Cell
import PulseCircuit.Fault
import PulseCircuit.IdPool
import PulseCircuit.Table
import PulseCircuit.Wire

/-!
# Circuits

A circuit holds all its cells and wires in one table, under their ids. Links between rows are ids,
so a circuit with loops is plain data, and a copy of it is the same value.

A circuit that was read from a file need not be consistent: a row may carry another id than the one
it is listed under, and a link may lead nowhere. Every look-up therefore says what it found.
-/

namespace PulseCircuit

inductive Row where
  | cell (cell : Cell)
  | wire (wire : Wire)
deriving BEq, DecidableEq, Repr

/-- The id a row carries. -/
def Row.id : Row → Id
  | .cell c => c.id
  | .wire w => w.id

structure Circuit where
  live : Table Id Row
  /-- Rows taken out but kept aside, so that their ids stay in use until a purge. -/
  archive : Table Id Row
  ids : IdPool
deriving DecidableEq

namespace Circuit

/-- The circuit that holds only the root. -/
def initial : Circuit :=
  let (root, ids) := IdPool.empty.takeCell
  { live := Table.empty.insert root.toId (.cell (.fresh root none .relay .origin))
    archive := .empty
    ids := ids }

/-! ## Looking things up -/

def row (c : Circuit) (id : Id) : Except Fault Row :=
  match c.live.get? id with
  | some row => .ok row
  | none => .error (.notFound id)

def cell (c : Circuit) (id : CellId) : Except Fault Cell :=
  match c.live.get? id with
  | some (.cell cell) => .ok cell
  | some (.wire _) => .error (.wrongKind id .cell)
  | none => .error (.notFound id)

def wire (c : Circuit) (id : WireId) : Except Fault Wire :=
  match c.live.get? id with
  | some (.wire wire) => .ok wire
  | some (.cell _) => .error (.wrongKind id .wire)
  | none => .error (.notFound id)

def contains (c : Circuit) (id : Id) : Bool := c.live.contains id

def isArchived (c : Circuit) (id : Id) : Bool := c.archive.contains id

/-- The live cells, oldest first. -/
def cells (c : Circuit) : List Cell :=
  c.live.values.filterMap fun
    | .cell cell => some cell
    | .wire _ => none

/-- The live wires, oldest first. -/
def wires (c : Circuit) : List Wire :=
  c.live.values.filterMap fun
    | .wire wire => some wire
    | .cell _ => none

/-- The number of live rows. -/
def size (c : Circuit) : Nat := c.live.size

/-- No cell holds a pulse. -/
def isQuiet (c : Circuit) : Bool := c.cells.all fun cell => !cell.fire.isLit

/-- The same live rows under the same ids, in whatever order. Archives and pools are not compared,
and positions are compared as numbers. -/
def sameState (c d : Circuit) : Bool :=
  c.size == d.size && c.live.rows.all fun (id, row) =>
    match d.live.get? id with
    | some other => row == other
    | none => false

theorem cell_eq_ok_iff {c : Circuit} {id : CellId} {cell : Cell} :
    c.cell id = .ok cell ↔ c.live.get? id = some (.cell cell) := by
  unfold Circuit.cell
  split <;> simp_all

theorem wire_eq_ok_iff {c : Circuit} {id : WireId} {wire : Wire} :
    c.wire id = .ok wire ↔ c.live.get? id = some (.wire wire) := by
  unfold Circuit.wire
  split <;> simp_all

end Circuit

end PulseCircuit
