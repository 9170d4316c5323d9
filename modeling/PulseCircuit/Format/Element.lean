import PulseCircuit.Json.Codec
import PulseCircuit.Peak

/-!
# Cells, wires, pulses and peaks in JSON

Ids and timings are plain integers, kinds and colours are names, and everything else is a record or
a union of records. What is empty by default is left out: tags, the fields of a patch, and the mark
of a halted peak.
-/

namespace PulseCircuit

open Json

/-! ## Names and numbers -/

def Id.codec : Codec Id :=
  .ofInt .bits32 Id.raw (fun raw => some ⟨raw⟩) fun _ => .malformed

def CellId.codec : Codec CellId :=
  .ofInt .bits32 CellId.raw CellId.ofRaw? .notACell

def WireId.codec : Codec WireId :=
  .ofInt .bits32 WireId.raw WireId.ofRaw? .notAWire

/-- Timings are written as their steps. -/
def Timing.codec : Codec Timing := .ofInt .bits8 Timing.step Timing.ofStep? .badTiming

def Colour.codec : Codec Colour := .choice Colour.all Colour.name

def ColourFilter.codec : Codec ColourFilter := .choice ColourFilter.all ColourFilter.name

def CellKind.codec : Codec CellKind := .choice CellKind.all CellKind.name

def CellTag.codec : Codec CellTag := .choice [.justCreated] fun .justCreated => "just_created"

def PulseKind.codec : Codec PulseKind := .choice PulseKind.all PulseKind.name

/-! ## Pulses -/

def Position.record : Record Position where
  types := [Float, Float]
  fields := (.required "x" .real, .required "y" .real, ())
  make := fun (x, y, ()) => ⟨x, y⟩
  take p := (p.x, p.y, ())

def Position.codec : Codec Position := Position.record.codec

def Template.record : Record Template where
  types := [CellKind, Position]
  fields := (.required "kind" CellKind.codec, .required "position" Position.codec, ())
  make := fun (kind, position, ()) => ⟨kind, position⟩
  take t := (t.kind, t.position, ())

def Template.codec : Codec Template := Template.record.codec

def Pulse.creationVariant : Variant Pulse where
  name := PulseKind.creation.name
  types := [Option Template]
  fields := (.nullable "template" Template.codec, ())
  make := fun (template, ()) => .creation template
  take
    | .creation template => some (template, ())
    | _ => none

def Pulse.codec : Codec Pulse :=
  Variant.codec "kind"
    [.plain PulseKind.raw.name .raw fun pulse => pulse.kind = .raw,
      Pulse.creationVariant,
      .plain PulseKind.destruction.name .destruction fun pulse => pulse.kind = .destruction,
      .plain PulseKind.ping.name .ping fun pulse => pulse.kind = .ping]

/-! ## Cells and wires -/

def Fire.record : Record Fire where
  types := [Option Pulse, Option Pulse, Option Pulse]
  fields :=
    (.nullable "red" Pulse.codec, .nullable "green" Pulse.codec, .nullable "blue" Pulse.codec, ())
  make := fun (red, green, blue, ()) => ⟨red, green, blue⟩
  take fire := (fire.red, fire.green, fire.blue, ())

def Fire.codec : Codec Fire := Fire.record.codec

def Cell.record : Record Cell where
  types :=
    [CellId, Option CellId, CellKind, Position, List CellId, List WireId, List WireId, Fire,
      List CellTag]
  fields :=
    (.required "id" CellId.codec,
      .nullable "parent" CellId.codec,
      .required "kind" CellKind.codec,
      .required "position" Position.codec,
      .required "children" (.list CellId.codec),
      .required "inputs" (.list WireId.codec),
      .required "outputs" (.list WireId.codec),
      .required "fire" Fire.codec,
      .usually "tags" [] (.list CellTag.codec),
      ())
  make := fun (id, parent, kind, position, children, inputs, outputs, fire, tags, ()) =>
    ⟨id, parent, kind, position, children, inputs, outputs, fire, tags⟩
  take c :=
    (c.id, c.parent, c.kind, c.position, c.children, c.inputs, c.outputs, c.fire, c.tags, ())

def Cell.codec : Codec Cell := Cell.record.codec

def CellPatch.record : Record CellPatch where
  types := [Option CellKind, Option Position, Option CellId]
  fields :=
    (.optional "kind" CellKind.codec,
      .optional "position" Position.codec,
      .optional "parent" CellId.codec,
      ())
  make := fun (kind, position, parent, ()) => ⟨kind, position, parent⟩
  take patch := (patch.kind, patch.position, patch.parent, ())

def CellPatch.codec : Codec CellPatch := CellPatch.record.codec

def Wire.record : Record Wire where
  types := [WireId, CellId, CellId, ColourFilter, Timing]
  fields :=
    (.required "id" WireId.codec,
      .required "source" CellId.codec,
      .required "target" CellId.codec,
      .required "colour" ColourFilter.codec,
      .required "timing" Timing.codec,
      ())
  make := fun (id, source, target, colour, timing, ()) => ⟨id, source, target, colour, timing⟩
  take w := (w.id, w.source, w.target, w.colour, w.timing, ())

def Wire.codec : Codec Wire := Wire.record.codec

def WirePatch.record : Record WirePatch where
  types := [Option CellId, Option CellId, Option ColourFilter, Option Timing]
  fields :=
    (.optional "source" CellId.codec,
      .optional "target" CellId.codec,
      .optional "colour" ColourFilter.codec,
      .optional "timing" Timing.codec,
      ())
  make := fun (source, target, colour, timing, ()) => ⟨source, target, colour, timing⟩
  take patch := (patch.source, patch.target, patch.colour, patch.timing, ())

def WirePatch.codec : Codec WirePatch := WirePatch.record.codec

/-! ## Operations and peaks -/

namespace Operation

def modifyVariant : Variant Operation where
  name := "modify"
  types := [CellId, CellPatch]
  fields := (.required "id" CellId.codec, .required "fields" CellPatch.codec, ())
  make := fun (id, fields, ()) => .modify id fields
  take
    | .modify id fields => some (id, fields, ())
    | _ => none

def modifyWireVariant : Variant Operation where
  name := "modify_wire"
  types := [WireId, WirePatch]
  fields := (.required "id" WireId.codec, .required "fields" WirePatch.codec, ())
  make := fun (id, fields, ()) => .modifyWire id fields
  take
    | .modifyWire id fields => some (id, fields, ())
    | _ => none

def tagVariant : Variant Operation where
  name := "tag"
  types := [CellId, CellTag]
  fields := (.required "id" CellId.codec, .required "key" CellTag.codec, ())
  make := fun (id, key, ()) => .tag id key
  take
    | .tag id key => some (id, key, ())
    | _ => none

def pongVariant : Variant Operation where
  name := "pong"
  types := [CellId]
  fields := (.required "id" CellId.codec, ())
  make := fun (id, ()) => .pong id
  take
    | .pong id => some (id, ())
    | _ => none

def codec : Codec Operation :=
  Variant.codec "op" [modifyVariant, modifyWireVariant, tagVariant, pongVariant]

end Operation

namespace Peak

def failVariant : Variant Peak where
  name := "fail"
  types := [List Operation]
  fields := (.required "operations" (.list Operation.codec), ())
  make := fun (operations, ()) => .fail operations
  take
    | .fail operations => some (operations, ())
    | _ => none

def successVariant : Variant Peak where
  name := "success"
  types := [Pulse, List Operation, Bool]
  fields :=
    (.required "pulse" Pulse.codec,
      .required "operations" (.list Operation.codec),
      .usually "halted" false .bool,
      ())
  make := fun (pulse, operations, halted, ()) => .success pulse operations halted
  take
    | .success pulse operations halted => some (pulse, operations, halted, ())
    | _ => none

def codec : Codec Peak := Variant.codec "peak" [failVariant, successVariant]

end Peak

end PulseCircuit
