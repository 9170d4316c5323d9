import PulseCircuit.Cell
import PulseCircuit.Wire

/-!
# Operations

Asking whether a cell fires never changes a circuit. What a pulse wants changed is written down as
operations, and they are carried out later. This is what lets questions be asked of imagined
circuits too.
-/

namespace PulseCircuit

inductive Operation where
  | modify (id : CellId) (fields : CellPatch)
  | modifyWire (id : WireId) (fields : WirePatch)
  | tag (id : CellId) (key : CellTag)
  /-- The answer of a cell to a ping. It changes nothing. -/
  | pong (id : CellId)
deriving BEq, DecidableEq, Repr

namespace Operation

/-- What the operation is about. -/
def target : Operation → Id
  | .modify id _ | .tag id _ | .pong id => id
  | .modifyWire id _ => id

/-- The operation changes the cell itself. -/
def claims (cell : CellId) : Operation → Bool
  | .modify id _ => id == cell
  | _ => false

end Operation

end PulseCircuit
