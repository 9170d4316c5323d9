import PulseCircuit.Format.Circuit
import PulseCircuit.Format.Scene
import PulseCircuit.Scene.Build

/-!
# Loading circuits

A file holds either a circuit in JSON or a scene in TOML, and its name says which.
-/

namespace PulseCircuit

/-- The last part of a path that is a name. -/
def fileName? (path : String) : Option String :=
  match ((path.splitOn "/").filter fun part => part ≠ "" ∧ part ≠ ".").getLast? with
  | some ".." | none => none
  | some name => some name

/-- What follows the last point of a name. A point in front does not count. -/
def extension? (name : String) : Option String :=
  match name.splitOn "." with
  | [] | [_] | ["", _] => none
  | parts => parts.getLast?

/-- The file at the path is expected to hold JSON. -/
def isJsonPath (path : String) : Bool := (fileName? path).bind extension? == some "json"

namespace Scene

/-- The circuit of a scene in TOML. -/
def load (validate : Bool) (text : String) : Except SceneError NamedCircuit := do
  let some scene := ofToml? text | throw .malformed
  scene.build validate

end Scene

namespace NamedCircuit

/-- The circuit of the file at a path, given what the file holds, if it can be read. A circuit from
JSON has no names but that of the root. -/
def load (validate : Bool) (path : String) (content : Option String) :
    Except SceneError NamedCircuit := do
  let some text := content | throw (.unreadable path)
  if isJsonPath path then
    match Circuit.ofJson text with
    | .ok c => return .ofCircuit c
    | .error _ => throw (.unusable path none)
  else
    let some scene := Scene.ofToml? text | throw (.unusable path (some .malformed))
    scene.build validate

end NamedCircuit

end PulseCircuit
