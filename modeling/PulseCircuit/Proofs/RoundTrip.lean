import PulseCircuit.Circuit.Editing
import PulseCircuit.Proofs.Faithful
import PulseCircuit.Proofs.Proper
import PulseCircuit.Proofs.Running

/-!
# Reading back what was written

A circuit is read back from its text as it was, with its rows in their order and its ids waiting in theirs,
exactly if its ids are proper, and so is every part of one that can be written by itself (`texts_read_back`). All
that is asked besides is that the text of each coordinate is read as that coordinate (`Legible`).

Ids are not always proper. A pool that is read from a file may count cells from the wrong side, and hands out ids
that are written but not read (`miscounted_not_read_back`).
-/

namespace PulseCircuit

open Json

/-! ## Legible coordinates -/

def Position.Legible (p : Position) : Prop := ReadsBack p.x ∧ ReadsBack p.y

instance (p : Position) : Decidable p.Legible := inferInstanceAs (Decidable (_ ∧ _))

def Pulse.Legible (pulse : Pulse) : Prop := ∀ template ∈ pulse.template?, template.position.Legible

instance (pulse : Pulse) : Decidable pulse.Legible := inferInstanceAs (Decidable (∀ template ∈ _, _))

@[mk_iff]
structure Fire.Legible (fire : Fire) : Prop where
  red : ∀ pulse ∈ fire.red, pulse.Legible
  green : ∀ pulse ∈ fire.green, pulse.Legible
  blue : ∀ pulse ∈ fire.blue, pulse.Legible

instance (fire : Fire) : Decidable fire.Legible := decidable_of_iff' _ (Fire.legible_iff fire)

def Cell.Legible (cell : Cell) : Prop := cell.position.Legible ∧ cell.fire.Legible

instance (cell : Cell) : Decidable cell.Legible := inferInstanceAs (Decidable (_ ∧ _))

def CellPatch.Legible (patch : CellPatch) : Prop := ∀ position ∈ patch.position, position.Legible

instance (patch : CellPatch) : Decidable patch.Legible := inferInstanceAs (Decidable (∀ position ∈ _, _))

def Operation.Legible : Operation → Prop
  | .modify _ fields => fields.Legible
  | .modifyWire .. | .tag .. | .pong _ => True

instance (operation : Operation) : Decidable operation.Legible :=
  match operation with
  | .modify _ fields => inferInstanceAs (Decidable fields.Legible)
  | .modifyWire .. | .tag .. | .pong _ => isTrue trivial

@[mk_iff]
structure Peak.Legible (peak : Peak) : Prop where
  pulse : ∀ pulse ∈ peak.pulse?, pulse.Legible
  operations : ∀ operation ∈ peak.operations, operation.Legible

instance (peak : Peak) : Decidable peak.Legible := decidable_of_iff' _ (Peak.legible_iff peak)

def Row.Legible : Row → Prop
  | .cell c => c.Legible
  | .wire _ => True

instance (row : Row) : Decidable row.Legible :=
  match row with
  | .cell c => inferInstanceAs (Decidable c.Legible)
  | .wire _ => isTrue trivial

def Table.Legible (t : Table Id Row) : Prop := ∀ entry ∈ t.rows, entry.2.Legible

instance (t : Table Id Row) : Decidable t.Legible := inferInstanceAs (Decidable (∀ entry ∈ _, _))

def Circuit.Legible (c : Circuit) : Prop := c.live.Legible ∧ c.archive.Legible

instance (c : Circuit) : Decidable c.Legible := inferInstanceAs (Decidable (_ ∧ _))

/-! ## Names and numbers -/

variable {levels : Nat}

theorem Id.faithful {id : Id} (h : id.Fits) : Id.codec.Faithful levels id := Codec.ofInt_faithful h h rfl

theorem CellId.faithful {id : CellId} (h : id.Proper) : CellId.codec.Faithful levels id :=
  Codec.ofInt_faithful h.2 h.2 (CellId.ofRaw?_eq_some_iff.mpr ⟨h.1, rfl⟩)

theorem WireId.faithful {id : WireId} (h : id.Proper) : WireId.codec.Faithful levels id :=
  Codec.ofInt_faithful h.2 h.2 (WireId.ofRaw?_eq_some_iff.mpr ⟨h.1, rfl⟩)

theorem Timing.faithful (timing : Timing) : Timing.codec.Faithful levels timing :=
  Codec.ofInt_faithful (by cases timing <;> decide) (by cases timing <;> decide) (Timing.ofStep?_step timing)

theorem ColourFilter.faithful (filter : ColourFilter) : ColourFilter.codec.Faithful levels filter := by
  apply Codec.choice_faithful
  rcases filter with _ | colour
  · decide
  · cases colour <;> decide

theorem CellKind.faithful (kind : CellKind) : CellKind.codec.Faithful levels kind :=
  Codec.choice_faithful (by cases kind <;> decide)

theorem CellTag.faithful (tag : CellTag) : CellTag.codec.Faithful levels tag :=
  Codec.choice_faithful (by cases tag; decide)

/-! ## Pulses -/

theorem Position.faithful {p : Position} (h : p.Legible) : Position.codec.Faithful (levels + 1) p := by
  apply Record.faithful
  · decide
  · rfl
  · exact ⟨.required (Codec.real_faithful h.1), .required (Codec.real_faithful h.2), trivial⟩

theorem Template.faithful {t : Template} (h : t.position.Legible) :
    Template.codec.Faithful (levels + 2) t := by
  apply Record.faithful
  · decide
  · rfl
  · exact ⟨.required (CellKind.faithful _), .required (Position.faithful h), trivial⟩

theorem Pulse.faithful {pulse : Pulse} (h : pulse.Legible) : Pulse.codec.Faithful (levels + 3) pulse := by
  cases pulse with
  | raw =>
    apply Variant.faithful (.plain PulseKind.raw.name .raw fun pulse => pulse.kind = .raw) ()
    · rfl
    · rfl
    · rfl
    · decide
    · trivial
  | creation template =>
    apply Variant.faithful creationVariant (template, ())
    · rfl
    · rfl
    · rfl
    · decide
    · exact ⟨.nullable fun t ht => Template.faithful (h t ht), trivial⟩
  | destruction =>
    apply Variant.faithful
      (.plain PulseKind.destruction.name .destruction fun pulse => pulse.kind = .destruction) ()
    · rfl
    · rfl
    · rfl
    · decide
    · trivial
  | ping =>
    apply Variant.faithful (.plain PulseKind.ping.name .ping fun pulse => pulse.kind = .ping) ()
    · rfl
    · rfl
    · rfl
    · decide
    · trivial

/-! ## Cells and wires -/

theorem Fire.faithful {fire : Fire} (h : fire.Legible) : Fire.codec.Faithful (levels + 4) fire := by
  apply Record.faithful
  · decide
  · rfl
  · exact ⟨.nullable fun pulse hp => Pulse.faithful (h.red pulse hp),
      .nullable fun pulse hp => Pulse.faithful (h.green pulse hp),
      .nullable fun pulse hp => Pulse.faithful (h.blue pulse hp), trivial⟩

/-- The fields of a cell, whether it is written by itself or as a row. -/
theorem Cell.faithful_fields {cell : Cell} (h : cell.Proper) (hlegible : cell.Legible) :
    Cell.record.fields.Faithful (levels + 4) (Cell.record.take cell) := by
  exact ⟨.required (CellId.faithful h.id),
    .nullable fun id hid => CellId.faithful (h.parent id hid),
    .required (CellKind.faithful _),
    .required (Position.faithful hlegible.1),
    .required (Codec.list_faithful fun id hid => CellId.faithful (h.children id hid)),
    .required (Codec.list_faithful fun id hid => WireId.faithful (h.inputs id hid)),
    .required (Codec.list_faithful fun id hid => WireId.faithful (h.outputs id hid)),
    .required (Fire.faithful hlegible.2),
    .usually (Codec.list_faithful fun tag _ => CellTag.faithful tag), trivial⟩

theorem Cell.faithful {cell : Cell} (h : cell.Proper) (hlegible : cell.Legible) :
    Cell.codec.Faithful (levels + 5) cell :=
  Record.faithful (by decide) rfl (Cell.faithful_fields h hlegible)

theorem CellPatch.faithful {patch : CellPatch} (h : patch.Proper) (hlegible : patch.Legible) :
    CellPatch.codec.Faithful (levels + 2) patch := by
  apply Record.faithful
  · decide
  · rfl
  · exact ⟨.optional fun kind _ => CellKind.faithful kind,
      .optional fun position hp => Position.faithful (hlegible position hp),
      .optional fun id hid => CellId.faithful (h id hid), trivial⟩

theorem Wire.faithful_fields {wire : Wire} (h : wire.Proper) :
    Wire.record.fields.Faithful levels (Wire.record.take wire) :=
  ⟨.required (WireId.faithful h.id), .required (CellId.faithful h.source),
    .required (CellId.faithful h.target), .required (ColourFilter.faithful _),
    .required (Timing.faithful _), trivial⟩

theorem Wire.faithful {wire : Wire} (h : wire.Proper) : Wire.codec.Faithful (levels + 1) wire :=
  Record.faithful (by decide) rfl (Wire.faithful_fields h)

theorem WirePatch.faithful {patch : WirePatch} (h : patch.Proper) :
    WirePatch.codec.Faithful (levels + 1) patch := by
  apply Record.faithful
  · decide
  · rfl
  · exact ⟨.optional fun id hid => CellId.faithful (h.source id hid),
      .optional fun id hid => CellId.faithful (h.target id hid),
      .optional fun filter _ => ColourFilter.faithful filter,
      .optional fun timing _ => Timing.faithful timing, trivial⟩

/-! ## Operations and peaks -/

theorem Operation.faithful {operation : Operation} (h : operation.Proper) (hlegible : operation.Legible) :
    Operation.codec.Faithful (levels + 3) operation := by
  cases operation with
  | modify id fields =>
    apply Variant.faithful modifyVariant (id, fields, ())
    · rfl
    · rfl
    · rfl
    · decide
    · exact ⟨.required (CellId.faithful h.1), .required (CellPatch.faithful h.2 hlegible), trivial⟩
  | modifyWire id fields =>
    apply Variant.faithful modifyWireVariant (id, fields, ())
    · rfl
    · rfl
    · rfl
    · decide
    · exact ⟨.required (WireId.faithful h.1), .required (WirePatch.faithful h.2), trivial⟩
  | tag id key =>
    apply Variant.faithful tagVariant (id, key, ())
    · rfl
    · rfl
    · rfl
    · decide
    · exact ⟨.required (CellId.faithful h), .required (CellTag.faithful key), trivial⟩
  | pong id =>
    apply Variant.faithful pongVariant (id, ())
    · rfl
    · rfl
    · rfl
    · decide
    · exact ⟨.required (CellId.faithful h), trivial⟩

theorem Peak.faithful {peak : Peak} (h : peak.Proper) (hlegible : peak.Legible) :
    Peak.codec.Faithful (levels + 5) peak := by
  have hoperations : (Codec.list Operation.codec).Faithful (levels + 4) peak.operations :=
    Codec.list_faithful fun operation hmem =>
      Operation.faithful (h operation hmem) (hlegible.operations operation hmem)
  cases peak with
  | fail operations =>
    apply Variant.faithful failVariant (operations, ())
    · rfl
    · rfl
    · rfl
    · decide
    · exact ⟨.required hoperations, trivial⟩
  | success pulse operations halted =>
    apply Variant.faithful successVariant (pulse, operations, halted, ())
    · rfl
    · rfl
    · rfl
    · decide
    · exact ⟨.required (Pulse.faithful (hlegible.pulse pulse rfl)), .required hoperations,
        .usually (Codec.bool_faithful halted), trivial⟩

/-! ## Circuits -/

theorem Row.faithful {row : Row} (h : row.Proper) (hlegible : row.Legible) :
    Row.codec.Faithful (levels + 5) row := by
  cases row with
  | cell c =>
    -- how a cell is told from a wire is read off the variants
    refine Variant.faithful (.ofRecord "cell" Cell.record .cell _) (Cell.record.take c) rfl rfl rfl ?_ ?_
    · decide
    · exact Cell.faithful_fields h hlegible
  | wire w =>
    refine Variant.faithful (.ofRecord "wire" Wire.record .wire _) (Wire.record.take w) rfl rfl rfl ?_ ?_
    · decide
    · exact Wire.faithful_fields h

theorem IdPool.faithful {pool : IdPool} (h : pool.Proper) : IdPool.codec.Faithful (levels + 2) pool := by
  apply Record.faithful
  · decide
  · rfl
  · exact ⟨.required (Codec.int32_faithful h.nextCell), .required (Codec.int32_faithful h.nextWire),
      .required (Codec.list_faithful fun id hid => CellId.faithful (h.freeCells id hid)),
      .required (Codec.list_faithful fun id hid => WireId.faithful (h.freeWires id hid)),
      .required (Codec.list_faithful fun id hid => Id.faithful (h.held id hid)), trivial⟩

namespace Table

theorem readKey_toString {id : Id} (h : id.Fits) : readKey (.ofString (toString id.raw)) = .ok id := by
  unfold readKey
  rw [Quoted.raw_ofString_toString, readNumeral_writeInt]
  exact (Id.faithful h : Id.codec.Faithful 0 id).decode .buffered trivial

theorem readRows_encode {rows : List (Id × Row)}
    (h : ∀ entry ∈ rows, entry.1.Fits ∧ entry.2.Proper) (hlegible : ∀ entry ∈ rows, entry.2.Legible)
    {mode : Mode} (hmode : mode.HasRoom (levels + 5)) :
    readRows mode (Value.memberSources (rows.map fun (id, row) => (toString id.raw, Row.codec.encode row))) =
      .ok rows := by
  induction rows with
  | nil => rfl
  | cons entry rows ih =>
    rcases entry with ⟨id, row⟩
    obtain ⟨hid, hrow⟩ := h (id, row) List.mem_cons_self
    have hrows := ih (fun entry hentry => h entry (List.mem_cons_of_mem _ hentry))
      fun entry hentry => hlegible entry (List.mem_cons_of_mem _ hentry)
    rw [List.map_cons]
    dsimp only
    rw [Value.memberSources, readRows, readKey_toString hid,
      (Row.faithful hrow (hlegible (id, row) List.mem_cons_self)).decode mode hmode, hrows]
    rfl

theorem faithful {t : Table Id Row} (h : t.Proper) (hlegible : t.Legible) :
    codec.Faithful (levels + 6) t where
  plain := by
    apply Value.Plain.object
    intro member hmember
    obtain ⟨entry, hentry, rfl⟩ := List.mem_map.mp hmember
    exact (Row.faithful (h entry hentry).2 (hlegible entry hentry)).plain
  present := nofun
  decode mode hmode := by
    show (readRows mode.deeper (Value.memberSources
      (t.rows.map fun (id, row) => (toString id.raw, Row.codec.encode row)))).map ofList = .ok t
    rw [readRows_encode h hlegible hmode.deeper]
    show Except.ok (ofList t.rows) = .ok t
    rw [ofList_rows]

end Table

theorem Circuit.faithful {c : Circuit} (h : c.Proper) (hlegible : c.Legible) :
    Circuit.codec.Faithful (levels + 7) c := by
  apply Record.faithful
  · decide
  · rfl
  · exact ⟨.required (Table.faithful h.live hlegible.1), .required (Table.faithful h.archive hlegible.2),
      .required (IdPool.faithful h.ids), trivial⟩

/-- A value is read back exactly under a condition that makes its codec faithful about it, if all that is decoded
meets the condition. -/
theorem Json.Codec.read_text_iff {α : Type} {codec : Codec α} {a : α} {P : Prop}
    (hgives : codec.Gives a → P) (hfaithful : P → codec.Faithful Mode.maxDepth a) :
    codec.read (codec.text a) = .ok a ↔ P := by
  constructor
  · intro h
    exact hgives (Codec.gives_of_read h)
  · intro h
    exact (hfaithful h).read_text

/-- A circuit with legible coordinates is read back as it was, with both tables in their order and its pool with
the counters, the ids waiting in theirs and the ids held, exactly if its ids are proper. The same holds of the
parts of a circuit and of what is wanted of one, where pulses have no ids. -/
theorem texts_read_back (c : Circuit) (cell : Cell) (wire : Wire) (pulse : Pulse) (peak : Peak)
    (operation : Operation) (patch : CellPatch) (wirePatch : WirePatch) :
    (c.Legible → (Circuit.ofJson c.toJson = .ok c ↔ c.Proper)) ∧
      (cell.Legible → (Cell.codec.read (Cell.codec.text cell) = .ok cell ↔ cell.Proper)) ∧
      (Wire.codec.read (Wire.codec.text wire) = .ok wire ↔ wire.Proper) ∧
      (pulse.Legible → Pulse.codec.read (Pulse.codec.text pulse) = .ok pulse) ∧
      (peak.Legible → (Peak.codec.read (Peak.codec.text peak) = .ok peak ↔ peak.Proper)) ∧
      (operation.Legible →
        (Operation.codec.read (Operation.codec.text operation) = .ok operation ↔ operation.Proper)) ∧
      (patch.Legible → (CellPatch.codec.read (CellPatch.codec.text patch) = .ok patch ↔ patch.Proper)) ∧
      (WirePatch.codec.read (WirePatch.codec.text wirePatch) = .ok wirePatch ↔ wirePatch.Proper) := by
  refine ⟨?_, ?_, ?_, ?_, ?_, ?_, ?_, ?_⟩
  · intro hlegible
    exact Codec.read_text_iff Circuit.proper fun h => Circuit.faithful h hlegible
  · intro hlegible
    exact Codec.read_text_iff Cell.proper fun h => Cell.faithful h hlegible
  · exact Codec.read_text_iff Wire.proper Wire.faithful
  · intro hlegible
    exact (Pulse.faithful hlegible).read_text
  · intro hlegible
    exact Codec.read_text_iff Peak.proper fun h => Peak.faithful h hlegible
  · intro hlegible
    exact Codec.read_text_iff Operation.proper fun h => Operation.faithful h hlegible
  · intro hlegible
    exact Codec.read_text_iff CellPatch.proper fun h => CellPatch.faithful h hlegible
  · exact Codec.read_text_iff WirePatch.proper WirePatch.faithful

/-- A cell that makes another one, and was just made itself. -/
def Cell.varied : Cell :=
  { Cell.fresh ⟨4⟩ (some .root) .slot ⟨-12.75, 0.1⟩ with
    inputs := [⟨-3⟩]
    fire := ⟨none, some (.creation (some ⟨.stopper, ⟨1e21, 2.5e-7⟩⟩)), some .ping⟩
    tags := [.justCreated] }

def Wire.varied : Wire := ⟨⟨-3⟩, .root, ⟨4⟩, .only .green, .past⟩

/-- A circuit with rows out of order, one row archived, and ids waiting to be used again. -/
def Circuit.furnished : Circuit where
  live := .ofList
    [(⟨4⟩, .cell .varied),
      (⟨-3⟩, .wire .varied),
      (⟨0⟩, .cell
        { Cell.fresh .root none .relay .origin with children := [⟨4⟩], outputs := [⟨-3⟩] })]
  archive := .ofList [(⟨2⟩, .cell (.fresh ⟨2⟩ (some .root) .recording ⟨3, -0.0⟩))]
  ids := ⟨6, -4, [⟨5⟩, ⟨1⟩, ⟨3⟩], [⟨-1⟩, ⟨-2⟩], [⟨2⟩]⟩

/-- Some fields are left alone. -/
def CellPatch.varied : CellPatch := ⟨some .recording, some ⟨0.3, 7⟩, none⟩

/-- The first field is left alone. -/
def WirePatch.varied : WirePatch := ⟨none, some ⟨4⟩, some .any, some .future⟩

/-- A peak with an operation of each kind. -/
def Peak.varied : Peak :=
  .success (.creation none)
    [.modify ⟨4⟩ .varied, .modifyWire ⟨-3⟩ .varied, .tag ⟨4⟩ .justCreated, .pong .root] true

theorem texts_read_back_furnished :
    Circuit.ofJson Circuit.furnished.toJson = .ok Circuit.furnished ∧
      Cell.codec.read (Cell.codec.text .varied) = .ok .varied ∧
      Wire.codec.read (Wire.codec.text .varied) = .ok .varied ∧
      Pulse.codec.read (Pulse.codec.text (.creation none)) = .ok (.creation none) ∧
      Peak.codec.read (Peak.codec.text .varied) = .ok .varied ∧
      Operation.codec.read (Operation.codec.text (.modify ⟨4⟩ .varied)) = .ok (.modify ⟨4⟩ .varied) ∧
      CellPatch.codec.read (CellPatch.codec.text .varied) = .ok .varied ∧
      WirePatch.codec.read (WirePatch.codec.text .varied) = .ok .varied := by
  obtain ⟨hcircuit, hcell, hwire, hpulse, hpeak, hoperation, hpatch, hwirePatch⟩ :=
    texts_read_back .furnished .varied .varied (.creation none) .varied (.modify ⟨4⟩ .varied) .varied .varied
  refine ⟨?_, ?_, ?_, ?_, ?_, ?_, ?_, ?_⟩
  · exact (hcircuit (by decide +kernel)).mpr (by decide +kernel)
  · exact (hcell (by decide +kernel)).mpr (by decide +kernel)
  · exact hwire.mpr (by decide +kernel)
  · exact hpulse (by decide +kernel)
  · exact (hpeak (by decide +kernel)).mpr (by decide +kernel)
  · exact (hoperation (by decide +kernel)).mpr (by decide +kernel)
  · exact (hpatch (by decide +kernel)).mpr (by decide +kernel)
  · exact hwirePatch.mpr (by decide +kernel)

/-! ## Pools that count from the wrong side -/

/-- A circuit whose next cell is named like a wire. -/
def Circuit.miscounting : Circuit :=
  { Circuit.initial with ids := { Circuit.initial.ids with nextCell := -5 } }

/-- The circuit with one more cell. -/
def Circuit.miscounted : Circuit :=
  (Circuit.createCell false .root .relay .origin).final Circuit.miscounting

/-- A circuit can be read from one text, have a cell added to it, and not be read from the other. -/
theorem miscounted_not_read_back :
    Circuit.ofJson Circuit.miscounting.toJson = .ok Circuit.miscounting ∧
      Circuit.miscounted.Legible ∧
      Circuit.ofJson Circuit.miscounted.toJson = .error (.notACell (-5)) := by
  have hproper : Circuit.miscounting.Proper := by decide +kernel
  have hlegible : Circuit.miscounting.Legible := by decide +kernel
  refine ⟨(Circuit.faithful hproper hlegible).read_text, by decide +kernel, ?_⟩
  unfold Circuit.ofJson Circuit.toJson Codec.read Codec.text Value.text
  rw [String.toList_ofList]
  decide +kernel

end PulseCircuit
