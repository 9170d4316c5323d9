/-!
# Pulses

The kinds a cell can have, and the signals that travel between cells. A creation pulse carries a
template of the cell it is going to make, so positions and templates are here too.

Positions are compared with `==` as floating-point numbers are: a position that is not a number
differs from itself, and `0.0` equals `-0.0`. Every `==` on a type that holds a position follows.
-/

namespace PulseCircuit

/-- A place in the plane. -/
structure Position where
  x : Float
  y : Float
deriving BEq, DecidableEq, Repr

def Position.origin : Position := ⟨0, 0⟩

/-- What a cell is, which decides how pulses fare at it. -/
inductive CellKind where
  /-- An empty place, filled by a creation pulse. -/
  | slot
  /-- A plain conductor. The root is one. -/
  | relay
  | recording
  /-- Turns raw pulses that leave it into creation pulses. -/
  | creation
  /-- Turns raw pulses that leave it into destruction pulses. -/
  | destruction
  /-- Swallows ping pulses. -/
  | stopper
deriving DecidableEq, Repr

namespace CellKind

def all : List CellKind := [.slot, .relay, .recording, .creation, .destruction, .stopper]

def name : CellKind → String
  | .slot => "slot"
  | .relay => "relay"
  | .recording => "recording"
  | .creation => "creation"
  | .destruction => "destruction"
  | .stopper => "stopper"

/-- The kind of a cell whose kind is not given. -/
def default : CellKind := .relay

/-- A creation pulse that passes such a cell takes it up as its template. -/
def isCloneable : CellKind → Bool
  | .recording | .creation | .destruction | .stopper => true
  | .slot | .relay => false

/-- A destruction pulse stops at such a cell and empties it. -/
def isDestroyable (kind : CellKind) : Bool := kind.isCloneable

end CellKind

/-- A passing mark on a cell. -/
inductive CellTag where
  /-- The cell was filled by a creation pulse in this beat. -/
  | justCreated
deriving DecidableEq, Repr

/-- What a creation pulse makes of the slot it lands in. -/
structure Template where
  kind : CellKind
  /-- Where the template was taken from. -/
  position : Position
deriving BEq, DecidableEq, Repr

/-- The template of a pulse that reached a slot without passing a cloneable cell. -/
def Template.fallback (position : Position) : Template := ⟨.recording, position⟩

/-- The kinds of pulse, which choose the rule by which a pulse is folded. -/
inductive PulseKind where
  | raw
  | creation
  | destruction
  | ping
deriving DecidableEq, Repr

namespace PulseKind

def all : List PulseKind := [.raw, .creation, .destruction, .ping]

def name : PulseKind → String
  | .raw => "raw"
  | .creation => "creation"
  | .destruction => "destruction"
  | .ping => "ping"

end PulseKind

/-- A signal on a cell. -/
inductive Pulse where
  /-- A signal of no particular kind, which is what firing a cell stores. -/
  | raw
  /-- Fills the next slot it reaches. -/
  | creation (template : Option Template)
  /-- Empties the next destroyable cell it reaches. -/
  | destruction
  /-- Is answered by every cell it crosses. -/
  | ping
deriving BEq, DecidableEq, Repr

namespace Pulse

/-- The pulse of a kind that carries nothing. -/
def ofKind : PulseKind → Pulse
  | .raw => .raw
  | .creation => .creation none
  | .destruction => .destruction
  | .ping => .ping

def kind : Pulse → PulseKind
  | .raw => .raw
  | .creation _ => .creation
  | .destruction => .destruction
  | .ping => .ping

def template? : Pulse → Option Template
  | .creation template => template
  | _ => none

theorem kind_ofKind (kind : PulseKind) : (ofKind kind).kind = kind := by
  cases kind <;> rfl

end Pulse

end PulseCircuit
