import PulseCircuit.Channel
import PulseCircuit.Id

/-!
# Wires

A wire carries pulses of the colours it admits from its source to its target, and its timing says
in which tick of the source it looks.
-/

namespace PulseCircuit

structure Wire where
  id : WireId
  source : CellId
  target : CellId
  colour : ColourFilter
  timing : Timing
deriving DecidableEq, Repr

/-- A change to some of a wire's properties. What is not given stays. -/
structure WirePatch where
  source : Option CellId
  target : Option CellId
  colour : Option ColourFilter
  timing : Option Timing
deriving DecidableEq, Repr

namespace WirePatch

def empty : WirePatch := ⟨none, none, none, none⟩

def ofColour (colour : ColourFilter) : WirePatch := { empty with colour := some colour }

def ofTiming (timing : Timing) : WirePatch := { empty with timing := some timing }

end WirePatch

namespace Wire

/-- The wire starts or ends at the cell. -/
def touches (wire : Wire) (cell : CellId) : Bool :=
  wire.source == cell || wire.target == cell

/-- Changes colour and timing. The ends are listed by cells too, and are not the wire's alone to
change. -/
def restyle (wire : Wire) (patch : WirePatch) : Wire :=
  { wire with
    colour := patch.colour.getD wire.colour
    timing := patch.timing.getD wire.timing }

end Wire

end PulseCircuit
