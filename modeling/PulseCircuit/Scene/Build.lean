import PulseCircuit.Circuit.Editing
import PulseCircuit.Decimal.Digits
import PulseCircuit.IntRange
import PulseCircuit.Scene.Basic

/-!
# Building scenes

A scene is built into a circuit in the order of its declarations: all cells, then all wires, then
all pulses. A cell may only name parents declared before it, wires and pulses may name every cell.
-/

namespace PulseCircuit

/-- Why there is no circuit for a scene, or no cell for a name. -/
inductive SceneError where
  | malformed
  | unreadable (path : String)
  /-- The text at the path is malformed. The cause is given if it is a scene. -/
  | unusable (path : String) (cause : Option SceneError)
  | declaredTwice (cell : String)
  | unknownParent (cell parent : String)
  | unknownSource (source : String)
  | unknownTarget (target : String)
  | unknownFired (cell : String)
  | unknownCell (cell : String)
  | creating (cell : String) (fault : Fault)
  | wiring (source target : String) (fault : Fault)
  | firing (cell : String) (fault : Fault)
deriving Repr

namespace SceneError

def quoted (name : String) : String := "`" ++ name ++ "`"

/-- What went wrong, followed by the causes. -/
def messages : SceneError → List String
  | .malformed => ["Invalid scene TOML"]
  | .unreadable path => ["Failed to read " ++ path]
  | .unusable path none => ["Failed to parse " ++ path]
  | .unusable path (some cause) => ("Failed to parse " ++ path) :: cause.messages
  | .declaredTwice cell => ["cell " ++ quoted cell ++ " is declared twice"]
  | .unknownParent cell parent => ["cell " ++ quoted cell ++ ": unknown parent " ++ quoted parent]
  | .unknownSource source => ["wire: unknown source " ++ quoted source]
  | .unknownTarget target => ["wire: unknown target " ++ quoted target]
  | .unknownFired cell => ["fire: unknown cell " ++ quoted cell]
  | .unknownCell cell => ["unknown cell " ++ quoted cell]
  | .creating cell fault => ["creating cell " ++ quoted cell, fault.message]
  | .wiring source target fault =>
    ["wiring " ++ quoted source ++ " -> " ++ quoted target, fault.message]
  | .firing cell fault => ["firing " ++ quoted cell, fault.message]

end SceneError

/-- A circuit whose cells have names. -/
structure NamedCircuit where
  circuit : Circuit
  /-- The names in the order in which they were declared. -/
  names : Table String CellId

namespace NamedCircuit

/-- Only the root has a name. -/
def ofCircuit (c : Circuit) : NamedCircuit := ⟨c, Table.empty.insert Scene.rootName .root⟩

/-- The cell with a name, or the error if there is none. -/
def named (n : NamedCircuit) (name : String) (unknown : SceneError) : Except SceneError CellId :=
  match n.names.get? name with
  | some id => .ok id
  | none => .error unknown

/-- Runs an edit on the circuit. -/
def editing {α : Type} (n : NamedCircuit) (edit : Edit α) (explain : Fault → SceneError) :
    Except SceneError (α × NamedCircuit) :=
  match edit n.circuit with
  | .ok a c => .ok (a, { n with circuit := c })
  | .error fault _ => .error (explain fault)

/-! ## Numbers for names -/

/-- The integer of 32 bits that a text writes: digits, with or without a sign. -/
def number? (text : String) : Option Int :=
  let (negative, digits) := Decimal.splitSign text.toList
  (Decimal.whole? digits).bind fun magnitude =>
    IntRange.bits32.accept? (Decimal.signed negative magnitude)

/-- The cell that a name or a number stands for. Names come first. -/
def resolve (n : NamedCircuit) (cell : String) : Except SceneError CellId :=
  match n.names.get? cell with
  | some id => .ok id
  | none =>
    match (number? cell).bind CellId.ofRaw? with
    | some id => (n.circuit.cell id).map (fun _ => id) |>.mapError fun _ => .unknownCell cell
    | none => .error (.unknownCell cell)

end NamedCircuit

namespace Scene

def declareCell (validate : Bool) (n : NamedCircuit) (cell : DeclaredCell) :
    Except SceneError NamedCircuit := do
  if n.names.contains cell.name then throw (.declaredTwice cell.name)
  let parent ←
    match cell.parent with
    | some parent => n.named parent (.unknownParent cell.name parent)
    | none => pure .root
  let (id, n) ←
    n.editing (Circuit.createCell validate parent cell.kind cell.position) (.creating cell.name)
  return { n with names := n.names.insert cell.name id }

def declareWire (validate : Bool) (n : NamedCircuit) (wire : DeclaredWire) :
    Except SceneError NamedCircuit := do
  let source ← n.named wire.source (.unknownSource wire.source)
  let target ← n.named wire.target (.unknownTarget wire.target)
  let (_, n) ←
    n.editing (Circuit.createWire validate source target wire.colour wire.timing)
      (.wiring wire.source wire.target)
  return n

def declarePulse (validate : Bool) (n : NamedCircuit) (pulse : DeclaredPulse) :
    Except SceneError NamedCircuit := do
  let cell ← n.named pulse.cell (.unknownFired pulse.cell)
  let (_, n) ←
    n.editing (Circuit.fire validate cell pulse.colour (.ofKind pulse.pulse)) (.firing pulse.cell)
  return n

/-- The circuit a scene describes. -/
def build (validate : Bool) (scene : Scene) : Except SceneError NamedCircuit := do
  let withCells ← scene.cells.foldlM (declareCell validate) (.ofCircuit .initial)
  let withWires ← scene.wires.foldlM (declareWire validate) withCells
  scene.pulses.foldlM (declarePulse validate) withWires

end Scene

end PulseCircuit
