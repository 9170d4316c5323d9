import PulseCircuit.Id
import PulseCircuit.IntRange

/-!
# The pool of ids

Cells are counted up from `0` and wires down from `-1`. Each side keeps the ids that were given
back, and hands out the one given back last before it counts on. Ids of archived rows are held
aside, and come back only when the archive is purged.

A stored pool has 32 bits for each counter, and here the counters are integers of any size. A pool
built from the empty one is far from the limits. One that was read may stand at them, so what is said
of its runs is said as long as both counters stay in range (`IdPool.InRange`).
-/

namespace PulseCircuit

structure IdPool where
  /-- The next cell id that was never handed out. -/
  nextCell : Int
  /-- The next wire id that was never handed out. -/
  nextWire : Int
  /-- Cell ids given back, the last one to be reused first. -/
  freeCells : List CellId
  /-- Wire ids given back, the last one to be reused first. -/
  freeWires : List WireId
  /-- Ids of archived rows, in the order they were archived. -/
  held : List Id
deriving DecidableEq, Repr

namespace IdPool

def empty : IdPool := ⟨0, -1, [], [], []⟩

/-- Both counters have 32 bits. -/
def InRange (pool : IdPool) : Prop :=
  IntRange.bits32.contains pool.nextCell = true ∧ IntRange.bits32.contains pool.nextWire = true

instance (pool : IdPool) : Decidable pool.InRange := inferInstanceAs (Decidable (_ ∧ _))

/-- Hands out a cell id: the one given back last, else a new one. -/
def takeCell (pool : IdPool) : CellId × IdPool :=
  match pool.freeCells.getLast? with
  | some id => (id, { pool with freeCells := pool.freeCells.dropLast })
  | none => (⟨pool.nextCell⟩, { pool with nextCell := pool.nextCell + 1 })

/-- Hands out a wire id: the one given back last, else a new one. -/
def takeWire (pool : IdPool) : WireId × IdPool :=
  match pool.freeWires.getLast? with
  | some id => (id, { pool with freeWires := pool.freeWires.dropLast })
  | none => (⟨pool.nextWire⟩, { pool with nextWire := pool.nextWire - 1 })

/-- Takes an id back for reuse. -/
def release (pool : IdPool) (id : Id) : IdPool :=
  match id.asCell? with
  | some cell => { pool with freeCells := pool.freeCells ++ [cell] }
  | none => { pool with freeWires := pool.freeWires ++ [⟨id.raw⟩] }

/-- Keeps an id out of use until the next purge. -/
def hold (pool : IdPool) (id : Id) : IdPool :=
  { pool with held := pool.held ++ [id] }

def isHeld (pool : IdPool) (id : Id) : Bool := pool.held.contains id

/-- Gives back every held id, in the order they were held, and says which they were. -/
def purge (pool : IdPool) : List Id × IdPool :=
  (pool.held, pool.held.foldl release { pool with held := [] })

theorem release_cell (pool : IdPool) {id : CellId} (h : 0 ≤ id.raw) :
    pool.release id = { pool with freeCells := pool.freeCells ++ [id] } := by
  have hc : id.toId.asCell? = some id := if_pos h
  simp only [release, hc]

theorem release_wire (pool : IdPool) {id : WireId} (h : id.raw < 0) :
    pool.release id = { pool with freeWires := pool.freeWires ++ [id] } := by
  have hc : id.toId.asCell? = none := if_neg (Int.not_le.mpr h)
  simp only [release, hc]
  rfl

/-- A cell id given back is the next one handed out, and the pool is then as it was before. -/
theorem takeCell_release (pool : IdPool) {id : CellId} (h : 0 ≤ id.raw) :
    (pool.release id).takeCell = (id, pool) := by
  simp [release_cell pool h, takeCell]

/-- A wire id given back is the next one handed out, and the pool is then as it was before. -/
theorem takeWire_release (pool : IdPool) {id : WireId} (h : id.raw < 0) :
    (pool.release id).takeWire = (id, pool) := by
  simp [release_wire pool h, takeWire]

end IdPool

end PulseCircuit
