import PulseCircuit.Circuit.Editing
import PulseCircuit.Operation

/-!
# Carrying out operations

Operations are carried out in order, up to the first one that fails. Those before it stay carried
out.
-/

namespace PulseCircuit

/-- What was carried out. -/
structure Applied where
  /-- The operations that changed the circuit. -/
  operations : List Operation
  /-- The cells that answered a ping. -/
  pongs : List CellId
deriving BEq, DecidableEq, Repr

namespace Applied

def nothing : Applied := ⟨[], []⟩

def isEmpty (applied : Applied) : Bool := applied.operations.isEmpty && applied.pongs.isEmpty

end Applied

namespace Circuit

/-- Carries out one operation and adds it to the account of the earlier ones. -/
def apply (validate : Bool) (applied : Applied) (operation : Operation) : Edit Applied := do
  let carriedOut : Applied := { applied with operations := applied.operations ++ [operation] }
  match operation with
  | .modify id fields =>
    modifyCell validate id fields
    return carriedOut
  | .modifyWire id fields =>
    modifyWire validate id fields
    return carriedOut
  | .tag id key =>
    tagCell validate id key
    return carriedOut
  | .pong id => return { applied with pongs := applied.pongs ++ [id] }

def applyAll (validate : Bool) (operations : List Operation) : Edit Applied :=
  operations.foldlM (apply validate) .nothing

end Circuit

end PulseCircuit
