import PulseCircuit.Id

/-!
# Faults

Everything that can go wrong, and the wording of it. A feedback loop is not a fault: a question
that comes back to itself is answered by a failed peak.
-/

namespace PulseCircuit

/-- What can be wrong with a row, seen from the rows it is linked to. -/
inductive Defect where
  | lacksParent
  | rootHasParent
  | parentMissing (parent : CellId)
  | notListedByParent (parent : CellId)
  | childMissing (child : CellId)
  | childElsewhere (child : CellId)
  | inputMissing (input : WireId)
  | inputEndsAt (input : WireId) (target : CellId)
  | outputMissing (output : WireId)
  | outputStartsAt (output : WireId) (source : CellId)
  | awayFromRoot
  | sourceMissing (source : CellId)
  | notListedBySource (source : CellId)
  | targetMissing (target : CellId)
  | notListedByTarget (target : CellId)
deriving DecidableEq, Repr

def Defect.message : Defect → String
  | .lacksParent => "only the root may lack a parent"
  | .rootHasParent => "the root has a parent"
  | .parentMissing parent => "parent " ++ parent.text ++ " is missing"
  | .notListedByParent parent => "parent " ++ parent.text ++ " does not list it as a child"
  | .childMissing child => "child " ++ child.text ++ " is missing"
  | .childElsewhere child => "child " ++ child.text ++ " points at another parent"
  | .inputMissing input => "input " ++ input.text ++ " is missing"
  | .inputEndsAt input target => "input " ++ input.text ++ " ends at " ++ target.text
  | .outputMissing output => "output " ++ output.text ++ " is missing"
  | .outputStartsAt output source => "output " ++ output.text ++ " starts at " ++ source.text
  | .awayFromRoot => "parent chain does not reach the root"
  | .sourceMissing source => "source " ++ source.text ++ " is missing"
  | .notListedBySource source => "source " ++ source.text ++ " does not list it as an output"
  | .targetMissing target => "target " ++ target.text ++ " is missing"
  | .notListedByTarget target => "target " ++ target.text ++ " does not list it as an input"

/-- Ways for pulses to spread that have an entry point but no rules yet. -/
inductive Unplanned where
  | wholeLayer
  | nestedLayers
  | fanOut
deriving DecidableEq, Repr

def Unplanned.message : Unplanned → String
  | .wholeLayer => "advance across a whole layer"
  | .nestedLayers => "deep advance into nested layers"
  | .fanOut => "colour-scoped fan-out"

inductive Fault where
  | notFound (id : Id)
  | wrongKind (id : Id) (wanted : Noun)
  | unimplemented (what : Unplanned)
  | invalid (id : Id) (defect : Defect)
  | rootImmovable
  | cyclicParent (cell parent : CellId)
  /-- A walk along links, or from tick to tick, that never comes to an end. No circuit whose cells
  form a tree and whose positions are numbers has one. -/
  | endless (id : Id)
deriving DecidableEq, Repr

def Fault.message : Fault → String
  | .notFound id => id.text ++ " does not exist"
  | .wrongKind id wanted => id.text ++ " is not a " ++ wanted.text
  | .unimplemented what => "not implemented: " ++ what.message
  | .invalid id defect => "validation failed for " ++ id.text ++ ": " ++ defect.message
  | .rootImmovable => "the root cell cannot be removed or re-parented"
  | .cyclicParent cell parent =>
    cell.text ++ " cannot be moved under its own descendant " ++ parent.text
  | .endless id => "the walk from " ++ id.text ++ " does not end"

end PulseCircuit
