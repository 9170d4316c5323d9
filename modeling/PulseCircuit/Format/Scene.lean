import PulseCircuit.Scene.Basic
import PulseCircuit.Toml.Document

/-!
# Scenes in TOML

A scene has rows of tables `cell`, `wire` and `fire`. Nothing may be given that is not known, and
what is not given has its usual value. A record may also be written as an array of its fields in
their order, where what is too much is passed over.
-/

namespace PulseCircuit

open Toml

namespace Toml

/-! ## Parts -/

namespace Value

/-- The fields that a value gives to a record with these fields. -/
def fields? (names : List String) : Value → Option Entries
  | .table _ entries => if entries.all (names.contains ·.1) then some entries else none
  | .array values | .tables values => some (names.zip values)
  | _ => none

def text? : Value → Option String
  | .string text => some text
  | _ => none

/-- A number, with or without a fraction. -/
def number? : Value → Option Float
  | .real x => some x
  | .integer n => some (Float.ofInt n)
  | _ => none

def list? {α : Type} (read? : Value → Option α) : Value → Option (List α)
  | .array values | .tables values => values.mapM read?
  | _ => none

/-- What may stand behind a name that is written as a key. -/
def isNothing : Value → Bool
  | .array [] | .tables [] | .table _ [] => true
  | _ => false

/-- One of finitely many names: a string, or the only key of a table. -/
def choice? {α : Type} (all : List α) (name : α → String) : Value → Option α
  | .string text => all.find? (name · = text)
  | .table _ [(key, value)] => if isNothing value then all.find? (name · = key) else none
  | _ => none

end Value

namespace Entries

/-- A field that has to be given. -/
def required {α : Type} (fields : Entries) (name : String) (read? : Value → Option α) : Option α :=
  (fields.lookup name).bind read?

/-- A field with a usual value. -/
def usually {α : Type} (fields : Entries) (name : String) (usual : α) (read? : Value → Option α) :
    Option α :=
  match fields.lookup name with
  | some value => read? value
  | none => some usual

end Entries

end Toml

namespace Scene

def cell? (value : Value) : Option DeclaredCell := do
  let fields ← value.fields? ["name", "kind", "parent", "x", "y"]
  let name ← fields.required "name" Value.text?
  let kind ← fields.usually "kind" .default (Value.choice? CellKind.all CellKind.name)
  let parent ← fields.usually "parent" none fun value => value.text?.map some
  let x ← fields.usually "x" 0 Value.number?
  let y ← fields.usually "y" 0 Value.number?
  return ⟨name, kind, parent, ⟨x, y⟩⟩

def wire? (value : Value) : Option DeclaredWire := do
  let fields ← value.fields? ["source", "target", "colour", "timing"]
  let source ← fields.required "source" Value.text?
  let target ← fields.required "target" Value.text?
  let colour ← fields.usually "colour" .any (Value.choice? ColourFilter.all ColourFilter.name)
  let timing ← fields.usually "timing" .now (Value.choice? Timing.all Timing.name)
  return ⟨source, target, colour, timing⟩

def pulse? (value : Value) : Option DeclaredPulse := do
  let fields ← value.fields? ["cell", "colour", "pulse"]
  let cell ← fields.required "cell" Value.text?
  let colour ← fields.required "colour" (Value.choice? Colour.all Colour.name)
  let pulse ← fields.usually "pulse" .raw (Value.choice? PulseKind.all PulseKind.name)
  return ⟨cell, colour, pulse⟩

/-- The scene a text describes, if it is TOML and describes one. -/
def ofToml? (text : String) : Option Scene := do
  let fields ← (Value.table .header (← Toml.read? text)).fields? ["cell", "wire", "fire"]
  let cells ← fields.usually "cell" [] (Value.list? cell?)
  let wires ← fields.usually "wire" [] (Value.list? wire?)
  let pulses ← fields.usually "fire" [] (Value.list? pulse?)
  return ⟨cells, wires, pulses⟩

end Scene

end PulseCircuit
