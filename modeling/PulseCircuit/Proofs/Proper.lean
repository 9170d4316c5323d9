import PulseCircuit.Format.Circuit
import PulseCircuit.Proofs.Decoded
import Mathlib.Tactic.MkIffOfInductiveProp

/-!
# Ids on their side of zero

Ids are proper if those of cells stand from zero up and those of wires below it, all of them in 32 bits. What is
decoded has proper ids wherever ids may stand (`Circuit.proper`, and so for each part of a circuit), as each id is
checked where it is read. A pool is checked less than that: its counters need only have 32 bits.
-/

namespace PulseCircuit

open Json

/-! ## Proper ids -/

/-- The integer has 32 bits. -/
def Id.Fits (id : Id) : Prop := IntRange.bits32.contains id.raw = true

instance (id : Id) : Decidable id.Fits := inferInstanceAs (Decidable (_ = _))

def CellId.Proper (id : CellId) : Prop := 0 ≤ id.raw ∧ id.toId.Fits

instance (id : CellId) : Decidable id.Proper := inferInstanceAs (Decidable (_ ∧ _))

def WireId.Proper (id : WireId) : Prop := id.raw < 0 ∧ id.toId.Fits

instance (id : WireId) : Decidable id.Proper := inferInstanceAs (Decidable (_ ∧ _))

@[mk_iff]
structure Cell.Proper (cell : Cell) : Prop where
  id : cell.id.Proper
  parent : ∀ id ∈ cell.parent, id.Proper
  children : ∀ id ∈ cell.children, id.Proper
  inputs : ∀ id ∈ cell.inputs, id.Proper
  outputs : ∀ id ∈ cell.outputs, id.Proper

instance (cell : Cell) : Decidable cell.Proper := decidable_of_iff' _ (Cell.proper_iff cell)

def CellPatch.Proper (patch : CellPatch) : Prop := ∀ id ∈ patch.parent, id.Proper

instance (patch : CellPatch) : Decidable patch.Proper := inferInstanceAs (Decidable (∀ id ∈ _, _))

@[mk_iff]
structure Wire.Proper (wire : Wire) : Prop where
  id : wire.id.Proper
  source : wire.source.Proper
  target : wire.target.Proper

instance (wire : Wire) : Decidable wire.Proper := decidable_of_iff' _ (Wire.proper_iff wire)

@[mk_iff]
structure WirePatch.Proper (patch : WirePatch) : Prop where
  source : ∀ id ∈ patch.source, id.Proper
  target : ∀ id ∈ patch.target, id.Proper

instance (patch : WirePatch) : Decidable patch.Proper := decidable_of_iff' _ (WirePatch.proper_iff patch)

def Operation.Proper : Operation → Prop
  | .modify id fields => id.Proper ∧ fields.Proper
  | .modifyWire id fields => id.Proper ∧ fields.Proper
  | .tag id _ | .pong id => id.Proper

instance (operation : Operation) : Decidable operation.Proper :=
  match operation with
  | .modify id fields => inferInstanceAs (Decidable (id.Proper ∧ fields.Proper))
  | .modifyWire id fields => inferInstanceAs (Decidable (id.Proper ∧ fields.Proper))
  | .tag id _ | .pong id => inferInstanceAs (Decidable id.Proper)

def Peak.Proper (peak : Peak) : Prop := ∀ operation ∈ peak.operations, operation.Proper

instance (peak : Peak) : Decidable peak.Proper := inferInstanceAs (Decidable (∀ operation ∈ _, _))

def Row.Proper : Row → Prop
  | .cell c => c.Proper
  | .wire w => w.Proper

instance (row : Row) : Decidable row.Proper :=
  match row with
  | .cell c => inferInstanceAs (Decidable c.Proper)
  | .wire w => inferInstanceAs (Decidable w.Proper)

@[mk_iff]
structure IdPool.Proper (pool : IdPool) : Prop where
  nextCell : IntRange.bits32.contains pool.nextCell = true
  nextWire : IntRange.bits32.contains pool.nextWire = true
  freeCells : ∀ id ∈ pool.freeCells, id.Proper
  freeWires : ∀ id ∈ pool.freeWires, id.Proper
  held : ∀ id ∈ pool.held, id.Fits

instance (pool : IdPool) : Decidable pool.Proper := decidable_of_iff' _ (IdPool.proper_iff pool)

/-- A row may stand under any key. -/
def Table.Proper (t : Table Id Row) : Prop := ∀ entry ∈ t.rows, entry.1.Fits ∧ entry.2.Proper

instance (t : Table Id Row) : Decidable t.Proper := inferInstanceAs (Decidable (∀ entry ∈ _, _))

@[mk_iff]
structure Circuit.Proper (c : Circuit) : Prop where
  live : c.live.Proper
  archive : c.archive.Proper
  ids : c.ids.Proper

instance (c : Circuit) : Decidable c.Proper := decidable_of_iff' _ (Circuit.proper_iff c)

/-! ## What is decoded -/

theorem Id.fits {id : Id} (h : Id.codec.Gives id) : id.Fits := by
  obtain ⟨raw, hraw, hid⟩ := Codec.gives_ofInt h
  cases hid
  exact hraw

theorem CellId.proper {id : CellId} (h : CellId.codec.Gives id) : id.Proper := by
  obtain ⟨raw, hraw, hid⟩ := Codec.gives_ofInt h
  obtain ⟨hside, rfl⟩ := CellId.ofRaw?_eq_some_iff.mp hid
  exact ⟨hside, hraw⟩

theorem WireId.proper {id : WireId} (h : WireId.codec.Gives id) : id.Proper := by
  obtain ⟨raw, hraw, hid⟩ := Codec.gives_ofInt h
  obtain ⟨hside, rfl⟩ := WireId.ofRaw?_eq_some_iff.mp hid
  exact ⟨hside, hraw⟩

theorem CellId.proper_of_list {ids : List CellId} (h : (Codec.list CellId.codec).Gives ids) :
    ∀ id ∈ ids, id.Proper :=
  fun id hid => CellId.proper (Codec.gives_list h id hid)

theorem WireId.proper_of_list {ids : List WireId} (h : (Codec.list WireId.codec).Gives ids) :
    ∀ id ∈ ids, id.Proper :=
  fun id hid => WireId.proper (Codec.gives_list h id hid)

/-- The fields of a cell, whether it is read by itself or as a row. -/
theorem Cell.proper_make {values : Values Cell.record.types} (h : Cell.record.fields.Give values) :
    (Cell.record.make values).Proper := by
  rcases values with ⟨id, parent, kind, position, children, inputs, outputs, fire, tags, ⟨⟩⟩
  rcases h with ⟨hid, hparent, -, -, hchildren, hinputs, houtputs, -⟩
  constructor
  · exact CellId.proper (Field.gives_required hid)
  · exact fun id hid => CellId.proper (Field.gives_nullable hparent id hid)
  · exact CellId.proper_of_list (Field.gives_required hchildren)
  · exact WireId.proper_of_list (Field.gives_required hinputs)
  · exact WireId.proper_of_list (Field.gives_required houtputs)

theorem Cell.proper {cell : Cell} (h : Cell.codec.Gives cell) : cell.Proper := by
  obtain ⟨values, hvalues, rfl⟩ := Record.gives h
  exact Cell.proper_make hvalues

theorem CellPatch.proper {patch : CellPatch} (h : CellPatch.codec.Gives patch) : patch.Proper := by
  obtain ⟨⟨kind, position, parent, ⟨⟩⟩, hvalues, rfl⟩ := Record.gives h
  rcases hvalues with ⟨-, -, hparent, -⟩
  exact fun id hid => CellId.proper (Field.gives_optional hparent id hid)

theorem Wire.proper_make {values : Values Wire.record.types} (h : Wire.record.fields.Give values) :
    (Wire.record.make values).Proper := by
  rcases values with ⟨id, source, target, colour, timing, ⟨⟩⟩
  rcases h with ⟨hid, hsource, htarget, -⟩
  constructor
  · exact WireId.proper (Field.gives_required hid)
  · exact CellId.proper (Field.gives_required hsource)
  · exact CellId.proper (Field.gives_required htarget)

theorem Wire.proper {wire : Wire} (h : Wire.codec.Gives wire) : wire.Proper := by
  obtain ⟨values, hvalues, rfl⟩ := Record.gives h
  exact Wire.proper_make hvalues

theorem WirePatch.proper {patch : WirePatch} (h : WirePatch.codec.Gives patch) : patch.Proper := by
  obtain ⟨⟨source, target, colour, timing, ⟨⟩⟩, hvalues, rfl⟩ := Record.gives h
  rcases hvalues with ⟨hsource, htarget, -⟩
  constructor
  · exact fun id hid => CellId.proper (Field.gives_optional hsource id hid)
  · exact fun id hid => CellId.proper (Field.gives_optional htarget id hid)

theorem Operation.proper {operation : Operation} (h : Operation.codec.Gives operation) :
    operation.Proper := by
  obtain ⟨variant, hvariant, values, hvalues, rfl⟩ := Variant.gives h
  rw [List.mem_cons, List.mem_cons, List.mem_cons, List.mem_singleton] at hvariant
  rcases hvariant with rfl | rfl | rfl | rfl
  · rcases values with ⟨id, fields, ⟨⟩⟩
    rcases hvalues with ⟨hid, hfields, -⟩
    exact ⟨CellId.proper (Field.gives_required hid), CellPatch.proper (Field.gives_required hfields)⟩
  · rcases values with ⟨id, fields, ⟨⟩⟩
    rcases hvalues with ⟨hid, hfields, -⟩
    exact ⟨WireId.proper (Field.gives_required hid), WirePatch.proper (Field.gives_required hfields)⟩
  · rcases values with ⟨id, key, ⟨⟩⟩
    exact CellId.proper (Field.gives_required hvalues.1)
  · rcases values with ⟨id, ⟨⟩⟩
    exact CellId.proper (Field.gives_required hvalues.1)

theorem Peak.proper {peak : Peak} (h : Peak.codec.Gives peak) : peak.Proper := by
  obtain ⟨variant, hvariant, values, hvalues, rfl⟩ := Variant.gives h
  rw [List.mem_cons, List.mem_singleton] at hvariant
  rcases hvariant with rfl | rfl
  · rcases values with ⟨operations, ⟨⟩⟩
    have hoperations := Codec.gives_list (Field.gives_required hvalues.1)
    exact fun operation hmem => Operation.proper (hoperations operation hmem)
  · rcases values with ⟨pulse, operations, halted, ⟨⟩⟩
    have hoperations := Codec.gives_list (Field.gives_required hvalues.2.1)
    exact fun operation hmem => Operation.proper (hoperations operation hmem)

theorem Row.proper {row : Row} (h : Row.codec.Gives row) : row.Proper := by
  obtain ⟨variant, hvariant, values, hvalues, rfl⟩ := Variant.gives h
  rw [List.mem_cons, List.mem_singleton] at hvariant
  rcases hvariant with rfl | rfl
  · exact Cell.proper_make hvalues
  · exact Wire.proper_make hvalues

theorem IdPool.proper {pool : IdPool} (h : IdPool.codec.Gives pool) : pool.Proper := by
  obtain ⟨⟨nextCell, nextWire, freeCells, freeWires, held, ⟨⟩⟩, hvalues, rfl⟩ := Record.gives h
  rcases hvalues with ⟨hnextCell, hnextWire, hfreeCells, hfreeWires, hheld, -⟩
  constructor
  · exact Codec.gives_int32 (Field.gives_required hnextCell)
  · exact Codec.gives_int32 (Field.gives_required hnextWire)
  · exact CellId.proper_of_list (Field.gives_required hfreeCells)
  · exact WireId.proper_of_list (Field.gives_required hfreeWires)
  · exact fun id hid => Id.fits (Codec.gives_list (Field.gives_required hheld) id hid)

namespace Table

theorem fits_of_readKey {key : Quoted} {id : Id} (h : readKey key = .ok id) : id.Fits := by
  unfold readKey at h
  split at h
  · exact Id.fits ⟨_, _, h⟩
  · cases h

theorem proper_of_readRows {mode : Mode} {members : List (Quoted × Source)} {rows : List (Id × Row)}
    (h : readRows mode members = .ok rows) : ∀ entry ∈ rows, entry.1.Fits ∧ entry.2.Proper := by
  induction members generalizing rows with
  | nil =>
    cases h
    intro entry hentry
    cases hentry
  | cons member members ih =>
    rcases member with ⟨key, source⟩
    rw [readRows] at h
    obtain ⟨id, hid, h⟩ := exists_of_bind h
    obtain ⟨row, hrow, h⟩ := exists_of_bind h
    obtain ⟨rest, hrest, h⟩ := exists_of_bind h
    cases h
    intro entry hentry
    rcases List.mem_cons.mp hentry with rfl | hentry
    · exact ⟨fits_of_readKey hid, Row.proper ⟨mode, source, hrow⟩⟩
    · exact ih hrest entry hentry

theorem proper {t : Table Id Row} (h : codec.Gives t) : t.Proper := by
  obtain ⟨mode, source, hdecode⟩ := h
  cases source with
  | object members =>
    obtain ⟨rows, hrows, rfl⟩ := exists_of_map hdecode
    intro entry hentry
    exact proper_of_readRows hrows entry (mem_of_mem_ofList hentry)
  | _ => cases hdecode

end Table

theorem Circuit.proper {c : Circuit} (h : Circuit.codec.Gives c) : c.Proper := by
  obtain ⟨⟨live, archive, ids, ⟨⟩⟩, hvalues, rfl⟩ := Record.gives h
  rcases hvalues with ⟨hlive, harchive, hids, -⟩
  constructor
  · exact Table.proper (Field.gives_required hlive)
  · exact Table.proper (Field.gives_required harchive)
  · exact IdPool.proper (Field.gives_required hids)

end PulseCircuit
