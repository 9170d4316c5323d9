import PulseCircuit.Channel
import PulseCircuit.Distinct
import PulseCircuit.Id
import PulseCircuit.Pulse

/-!
# Cells

A cell hangs below its parent in a tree, lists its children and the wires that end and start at it,
and holds at most one pulse of each colour.
-/

namespace PulseCircuit

/-- The pulses a cell holds, one place for each colour. -/
structure Fire where
  red : Option Pulse
  green : Option Pulse
  blue : Option Pulse
deriving BEq, DecidableEq, Repr

namespace Fire

def none : Fire := ⟨.none, .none, .none⟩

def get (fire : Fire) : Colour → Option Pulse
  | .red => fire.red
  | .green => fire.green
  | .blue => fire.blue

def set (fire : Fire) (colour : Colour) (pulse : Option Pulse) : Fire :=
  match colour with
  | .red => { fire with red := pulse }
  | .green => { fire with green := pulse }
  | .blue => { fire with blue := pulse }

/-- Some colour holds a pulse. -/
def isLit (fire : Fire) : Bool :=
  fire.red.isSome || fire.green.isSome || fire.blue.isSome

theorem get_set_self (fire : Fire) (colour : Colour) (pulse : Option Pulse) :
    (fire.set colour pulse).get colour = pulse := by
  cases colour <;> rfl

theorem get_set_of_ne (fire : Fire) {colour other : Colour} (pulse : Option Pulse)
    (h : other ≠ colour) : (fire.set colour pulse).get other = fire.get other := by
  cases colour <;> cases other <;> first | rfl | exact absurd rfl h

theorem isLit_iff (fire : Fire) :
    fire.isLit = true ↔ ∃ colour, (fire.get colour).isSome = true := by
  constructor
  · intro h
    simp only [isLit, Bool.or_eq_true] at h
    rcases h with (h | h) | h
    · exact ⟨.red, h⟩
    · exact ⟨.green, h⟩
    · exact ⟨.blue, h⟩
  · rintro ⟨colour, h⟩
    cases colour <;> simp_all [isLit, get]

end Fire

structure Cell where
  id : CellId
  /-- Only the root has none. -/
  parent : Option CellId
  kind : CellKind
  position : Position
  children : List CellId
  /-- The wires that end here, in the order in which they were attached and are folded. -/
  inputs : List WireId
  /-- The wires that start here, in the order in which they were attached. -/
  outputs : List WireId
  fire : Fire
  tags : List CellTag
deriving BEq, DecidableEq, Repr

/-- A change to some of a cell's properties. What is not given stays. -/
structure CellPatch where
  kind : Option CellKind
  position : Option Position
  parent : Option CellId
deriving BEq, DecidableEq, Repr

namespace CellPatch

def empty : CellPatch := ⟨none, none, none⟩

def ofKind (kind : CellKind) : CellPatch := { empty with kind := some kind }

def ofPosition (position : Position) : CellPatch := { empty with position := some position }

def ofParent (parent : CellId) : CellPatch := { empty with parent := some parent }

/-- Filling a slot changes its kind. The slot keeps its place. -/
def ofTemplate (template : Template) : CellPatch := ofKind template.kind

def isEmpty (patch : CellPatch) : Bool :=
  patch.kind.isNone && patch.position.isNone && patch.parent.isNone

end CellPatch

namespace Cell

/-- A new cell: no links, no pulses, no tags. -/
def fresh (id : CellId) (parent : Option CellId) (kind : CellKind) (position : Position) :
    Cell where
  id := id
  parent := parent
  kind := kind
  position := position
  children := []
  inputs := []
  outputs := []
  fire := .none
  tags := []

def hasTag (cell : Cell) (tag : CellTag) : Bool := cell.tags.contains tag

/-- Adds a tag that is not there yet. -/
def tag (cell : Cell) (tag : CellTag) : Cell := { cell with tags := addNew cell.tags tag }

/-- The shape a creation pulse takes up when it passes the cell. -/
def template (cell : Cell) : Template := ⟨cell.kind, cell.position⟩

/-- Changes kind and position. The place in the tree is not the cell's alone to change. -/
def restyle (cell : Cell) (patch : CellPatch) : Cell :=
  { cell with
    kind := patch.kind.getD cell.kind
    position := patch.position.getD cell.position }

theorem tag_tag (cell : Cell) (t : CellTag) : (cell.tag t).tag t = cell.tag t := by
  by_cases h : t ∈ cell.tags <;> simp [tag, addNew, h]

end Cell

end PulseCircuit
