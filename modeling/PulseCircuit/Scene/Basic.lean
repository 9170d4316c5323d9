import PulseCircuit.Channel
import PulseCircuit.Pulse

/-!
# Scenes

A circuit described by names: cells, the wires between them, and the pulses to store before the
first beat.
-/

namespace PulseCircuit

namespace Scene

/-- The name of the root, which every scene has without declaring it. -/
def rootName : String := "root"

structure DeclaredCell where
  name : String
  kind : CellKind
  /-- A cell declared earlier. Without one it is the root. -/
  parent : Option String
  position : Position
deriving Repr

structure DeclaredWire where
  source : String
  target : String
  colour : ColourFilter
  timing : Timing
deriving Repr

structure DeclaredPulse where
  cell : String
  colour : Colour
  pulse : PulseKind
deriving Repr

end Scene

structure Scene where
  cells : List Scene.DeclaredCell
  wires : List Scene.DeclaredWire
  pulses : List Scene.DeclaredPulse
deriving Repr

end PulseCircuit
