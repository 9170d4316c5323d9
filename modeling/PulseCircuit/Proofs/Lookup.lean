import Mathlib.Logic.Function.Basic
import PulseCircuit.Circuit.Removal

/-!
# What changes look like from outside

A circuit is read through look-ups of cells and wires. This module has the changes of which all edits
are made, as functions on circuits, and says what each of them does to every look-up.

* `get?_changeCell`, `get?_changeWire`, `get?_put`, `get?_retired`: the row under an id afterwards, and with
  `cell?_…` and `wire?_…` the cell and the wire;
* `ofCells_…`, `ofWires_…`: the same for one property of all cells or of all wires, as an update of
  a function.
-/

namespace PulseCircuit

namespace Circuit

/-! ## Look-ups -/

/-- The live cell of an id, if it has one. -/
def cell? (c : Circuit) (id : CellId) : Option Cell :=
  match c.live.get? id with
  | some (.cell cell) => some cell
  | _ => none

/-- The live wire of an id, if it has one. -/
def wire? (c : Circuit) (id : WireId) : Option Wire :=
  match c.live.get? id with
  | some (.wire wire) => some wire
  | _ => none

theorem cell?_eq_some_iff {c : Circuit} {id : CellId} {cell : Cell} :
    c.cell? id = some cell ↔ c.live.get? id = some (.cell cell) := by
  unfold cell?
  split <;> simp_all

theorem wire?_eq_some_iff {c : Circuit} {id : WireId} {wire : Wire} :
    c.wire? id = some wire ↔ c.live.get? id = some (.wire wire) := by
  unfold wire?
  split <;> simp_all

theorem cell_ok_iff {c : Circuit} {id : CellId} {cell : Cell} :
    c.cell id = .ok cell ↔ c.cell? id = some cell :=
  cell_eq_ok_iff.trans cell?_eq_some_iff.symm

theorem wire_ok_iff {c : Circuit} {id : WireId} {wire : Wire} :
    c.wire id = .ok wire ↔ c.wire? id = some wire :=
  wire_eq_ok_iff.trans wire?_eq_some_iff.symm

theorem cell?_of_error {c : Circuit} {id : CellId} {fault : Fault} (h : c.cell id = .error fault) :
    c.cell? id = none := by
  rw [Option.eq_none_iff_forall_ne_some]
  intro cell hcell
  rw [cell_ok_iff.mpr hcell] at h
  cases h

theorem wire?_of_error {c : Circuit} {id : WireId} {fault : Fault} (h : c.wire id = .error fault) :
    c.wire? id = none := by
  rw [Option.eq_none_iff_forall_ne_some]
  intro wire hwire
  rw [wire_ok_iff.mpr hwire] at h
  cases h

theorem cell?_of_absent {c : Circuit} {id : CellId} (h : c.live.get? id = none) :
    c.cell? id = none := by
  simp [cell?, h]

theorem wire?_of_absent {c : Circuit} {id : WireId} (h : c.live.get? id = none) :
    c.wire? id = none := by
  simp [wire?, h]

theorem mem_keys_of_cell? {c : Circuit} {id : CellId} {cell : Cell} (h : c.cell? id = some cell) :
    id.toId ∈ c.live.keys :=
  Table.mem_keys_iff.mpr (Option.isSome_of_eq_some (cell?_eq_some_iff.mp h))

theorem mem_keys_of_wire? {c : Circuit} {id : WireId} {wire : Wire} (h : c.wire? id = some wire) :
    id.toId ∈ c.live.keys :=
  Table.mem_keys_iff.mpr (Option.isSome_of_eq_some (wire?_eq_some_iff.mp h))

/-- A row is found as a cell or as a wire. -/
theorem get?_eq_of_lookups {c d : Circuit} (hcell : ∀ id, d.cell? id = c.cell? id)
    (hwire : ∀ id, d.wire? id = c.wire? id) (id : Id) : d.live.get? id = c.live.get? id := by
  have hcell := hcell ⟨id.raw⟩
  have hwire := hwire ⟨id.raw⟩
  have hid : CellId.toId ⟨id.raw⟩ = id := rfl
  have hid' : WireId.toId ⟨id.raw⟩ = id := rfl
  simp only [cell?, wire?, hid, hid'] at hcell hwire
  rcases hd : d.live.get? id with - | (_ | _) <;> rcases hc : c.live.get? id with - | (_ | _) <;>
    simp_all

/-- The live cells are what the look-ups find. -/
theorem mem_cells_iff_exists {c : Circuit} {cell : Cell} :
    cell ∈ c.cells ↔ ∃ id, c.cell? id = some cell := by
  rw [cells, List.mem_filterMap]
  constructor
  · rintro ⟨row, hrow, heq⟩
    obtain ⟨⟨id, row⟩, hmem, rfl⟩ := List.mem_map.mp hrow
    rcases row with other | wire
    · cases heq
      exact ⟨⟨id.raw⟩, cell?_eq_some_iff.mpr (Table.get?_eq_some_iff.mpr hmem)⟩
    · cases heq
  · rintro ⟨id, hcell⟩
    have hmem := Table.get?_eq_some_iff.mp (cell?_eq_some_iff.mp hcell)
    exact ⟨.cell cell, List.mem_map.mpr ⟨_, hmem, rfl⟩, rfl⟩

/-- The live wires are what the look-ups find. -/
theorem mem_wires_iff_exists {c : Circuit} {wire : Wire} :
    wire ∈ c.wires ↔ ∃ id, c.wire? id = some wire := by
  rw [wires, List.mem_filterMap]
  constructor
  · rintro ⟨row, hrow, heq⟩
    obtain ⟨⟨id, row⟩, hmem, rfl⟩ := List.mem_map.mp hrow
    rcases row with cell | other
    · cases heq
    · cases heq
      exact ⟨⟨id.raw⟩, wire?_eq_some_iff.mpr (Table.get?_eq_some_iff.mpr hmem)⟩
  · rintro ⟨id, hwire⟩
    have hmem := Table.get?_eq_some_iff.mp (wire?_eq_some_iff.mp hwire)
    exact ⟨.wire wire, List.mem_map.mpr ⟨_, hmem, rfl⟩, rfl⟩

/-! ## Changes -/

/-- The circuit with a cell changed, if it is there. -/
def changeCell (c : Circuit) (id : CellId) (change : Cell → Cell) : Circuit :=
  match c.cell? id with
  | some cell => { c with live := c.live.update id fun _ => .cell (change cell) }
  | none => c

/-- The circuit with a wire changed, if it is there. -/
def changeWire (c : Circuit) (id : WireId) (change : Wire → Wire) : Circuit :=
  match c.wire? id with
  | some wire => { c with live := c.live.update id fun _ => .wire (change wire) }
  | none => c

/-- The circuit with a row put under an id. -/
def put (c : Circuit) (id : Id) (row : Row) : Circuit := { c with live := c.live.insert id row }

theorem get?_changeCell (c : Circuit) (id : CellId) (change : Cell → Cell) (k : Id) :
    (c.changeCell id change).live.get? k =
      if k = id.toId ∧ (c.cell? id).isSome then (c.cell? id).map fun cell => .cell (change cell)
      else c.live.get? k := by
  unfold changeCell
  cases hcell : c.cell? id with
  | none => simp
  | some cell =>
    rw [cell?_eq_some_iff] at hcell
    by_cases hk : k = id.toId
    · simp [Table.get?_update, hk, hcell]
    · simp [Table.get?_update, hk]

theorem get?_changeWire (c : Circuit) (id : WireId) (change : Wire → Wire) (k : Id) :
    (c.changeWire id change).live.get? k =
      if k = id.toId ∧ (c.wire? id).isSome then (c.wire? id).map fun wire => .wire (change wire)
      else c.live.get? k := by
  unfold changeWire
  cases hwire : c.wire? id with
  | none => simp
  | some wire =>
    rw [wire?_eq_some_iff] at hwire
    by_cases hk : k = id.toId
    · simp [Table.get?_update, hk, hwire]
    · simp [Table.get?_update, hk]

theorem get?_put (c : Circuit) (id : Id) (row : Row) (k : Id) :
    (c.put id row).live.get? k = if k = id then some row else c.live.get? k :=
  Table.get?_insert c.live id k row

theorem get?_retired (c : Circuit) (removal : Removal) (id k : Id) :
    (c.retired removal id).live.get? k = if k = id then none else c.live.get? k := by
  unfold retired
  cases hrow : c.live.get? id with
  | none =>
    by_cases hk : k = id
    · simp [hk, hrow]
    · simp [hk]
  | some row => cases removal <;> exact Table.get?_erase c.live id k

theorem cell?_changeCell (c : Circuit) (id : CellId) (change : Cell → Cell) (x : CellId) :
    (c.changeCell id change).cell? x = if x = id then (c.cell? id).map change else c.cell? x := by
  by_cases hx : x = id
  · subst hx
    cases hcell : c.cell? x with
    | none =>
      have hsame : c.changeCell x change = c := by simp [changeCell, hcell]
      rw [hsame, hcell]
      simp
    | some cell =>
      have hget : (c.changeCell x change).live.get? x.toId = some (.cell (change cell)) := by
        simp [get?_changeCell, hcell]
      simp [cell?_eq_some_iff.mpr hget]
  · have hid : x.toId ≠ id.toId := fun h => hx (CellId.toId_inj.mp h)
    simp [cell?, get?_changeCell, hid, hx]

theorem cell?_changeCell_eq_map (c : Circuit) (id : CellId) (change : Cell → Cell) (x : CellId) :
    (c.changeCell id change).cell? x =
      (c.cell? x).map fun cell => if x = id then change cell else cell := by
  rw [cell?_changeCell]
  by_cases hx : x = id
  · simp [hx]
  · simp [hx]

/-- Changing a cell takes no cell away. -/
theorem live_changeCell {c : Circuit} {x : CellId} (h : ∃ cell, c.cell? x = some cell)
    (id : CellId) (change : Cell → Cell) : ∃ cell, (c.changeCell id change).cell? x = some cell := by
  obtain ⟨cell, hcell⟩ := h
  rw [cell?_changeCell]
  split
  next hx =>
    rw [← hx, hcell]
    exact ⟨_, rfl⟩
  next => exact ⟨cell, hcell⟩

theorem wire?_changeCell (c : Circuit) (id : CellId) (change : Cell → Cell) (x : WireId) :
    (c.changeCell id change).wire? x = c.wire? x := by
  unfold wire?
  rw [get?_changeCell]
  by_cases h : x.toId = id.toId ∧ (c.cell? id).isSome
  · -- the row under this id is a cell before and after, so no wire is found in it
    obtain ⟨cell, hcell⟩ := Option.isSome_iff_exists.mp h.2
    have hget := cell?_eq_some_iff.mp hcell
    simp [h.1, hcell, hget]
  · rw [if_neg h]

theorem keys_changeCell (c : Circuit) (id : CellId) (change : Cell → Cell) :
    (c.changeCell id change).live.keys = c.live.keys := by
  unfold changeCell
  split
  · exact Table.keys_update ..
  · rfl

theorem ids_changeCell (c : Circuit) (id : CellId) (change : Cell → Cell) :
    (c.changeCell id change).ids = c.ids := by
  unfold changeCell
  split <;> rfl

theorem archive_changeCell (c : Circuit) (id : CellId) (change : Cell → Cell) :
    (c.changeCell id change).archive = c.archive := by
  unfold changeCell
  split <;> rfl

theorem cell?_changeWire (c : Circuit) (id : WireId) (change : Wire → Wire) (x : CellId) :
    (c.changeWire id change).cell? x = c.cell? x := by
  unfold cell?
  rw [get?_changeWire]
  by_cases h : x.toId = id.toId ∧ (c.wire? id).isSome
  · obtain ⟨wire, hwire⟩ := Option.isSome_iff_exists.mp h.2
    have hget := wire?_eq_some_iff.mp hwire
    simp [h.1, hwire, hget]
  · rw [if_neg h]

theorem wire?_changeWire (c : Circuit) (id : WireId) (change : Wire → Wire) (x : WireId) :
    (c.changeWire id change).wire? x = if x = id then (c.wire? id).map change else c.wire? x := by
  by_cases hx : x = id
  · subst hx
    cases hwire : c.wire? x with
    | none =>
      have hsame : c.changeWire x change = c := by simp [changeWire, hwire]
      rw [hsame, hwire]
      simp
    | some wire =>
      have hget : (c.changeWire x change).live.get? x.toId = some (.wire (change wire)) := by
        simp [get?_changeWire, hwire]
      simp [wire?_eq_some_iff.mpr hget]
  · have hid : x.toId ≠ id.toId := fun h => hx (WireId.toId_inj.mp h)
    simp [wire?, get?_changeWire, hid, hx]

theorem cell?_put_cell (c : Circuit) (id : CellId) (cell : Cell) (x : CellId) :
    (c.put id (.cell cell)).cell? x = if x = id then some cell else c.cell? x := by
  by_cases hx : x = id
  · subst hx
    simp [cell?, get?_put]
  · have hid : x.toId ≠ id.toId := fun h => hx (CellId.toId_inj.mp h)
    simp [cell?, get?_put, hid, hx]

/-- A row put elsewhere hides no cell. -/
theorem cell?_put_of_ne (c : Circuit) {id : Id} (row : Row) {x : CellId} (hne : x.toId ≠ id) :
    (c.put id row).cell? x = c.cell? x := by
  simp [cell?, get?_put, hne]

theorem cell?_put_wire {c : Circuit} {id : WireId} (h : c.live.get? id = none) (wire : Wire)
    (x : CellId) : (c.put id (.wire wire)).cell? x = c.cell? x := by
  by_cases hx : x.toId = id.toId
  · simp [cell?, get?_put, hx, h]
  · exact c.cell?_put_of_ne _ hx

/-- A row put elsewhere hides no wire. -/
theorem wire?_put_of_ne (c : Circuit) {id : Id} (row : Row) {x : WireId} (hne : x.toId ≠ id) :
    (c.put id row).wire? x = c.wire? x := by
  simp [wire?, get?_put, hne]

theorem wire?_put_self (c : Circuit) (id : WireId) (wire : Wire) :
    (c.put id (.wire wire)).wire? id = some wire := by
  simp [wire?, get?_put]

theorem wire?_retired_wire (c : Circuit) (removal : Removal) (id x : WireId) :
    (c.retired removal id).wire? x = if x = id then none else c.wire? x := by
  by_cases hx : x = id
  · subst hx
    simp [wire?, get?_retired]
  · have hid : x.toId ≠ id.toId := fun h => hx (WireId.toId_inj.mp h)
    simp [wire?, get?_retired, hid, hx]

theorem cell?_retired_wire {c : Circuit} {removal : Removal} {id : WireId} {wire : Wire}
    (h : c.wire? id = some wire) (x : CellId) : (c.retired removal id).cell? x = c.cell? x := by
  have hget := wire?_eq_some_iff.mp h
  by_cases hx : x.toId = id.toId
  · simp [cell?, get?_retired, hx, hget]
  · simp [cell?, get?_retired, hx]

/-! ## One property of all rows -/

/-- A property of the live cells, by their ids. -/
def ofCells {α : Type} (c : Circuit) (f : Cell → Option α) (id : CellId) : Option α :=
  (c.cell? id).bind f

/-- A property of the live wires, by their ids. -/
def ofWires {α : Type} (c : Circuit) (f : Wire → Option α) (id : WireId) : Option α :=
  (c.wire? id).bind f

section Properties

variable {α : Type} {c : Circuit}

theorem ofCells_changeCell (f : Cell → Option α) {id : CellId} {cell : Cell}
    (h : c.cell? id = some cell) (change : Cell → Cell) :
    (c.changeCell id change).ofCells f = Function.update (c.ofCells f) id (f (change cell)) := by
  funext x
  by_cases hx : x = id
  · subst hx
    simp [ofCells, cell?_changeCell, h]
  · rw [Function.update_of_ne hx]
    simp [ofCells, cell?_changeCell, hx]

/-- A change that takes a property `p` by `g` takes its value by `g`. -/
theorem ofCells_changeCell_map {β : Type} (p : Cell → β) (g : β → β) {id : CellId} {v : β}
    (h : c.ofCells (fun cell => some (p cell)) id = some v) {change : Cell → Cell}
    (hp : ∀ cell, p (change cell) = g (p cell)) :
    (c.changeCell id change).ofCells (fun cell => some (p cell)) =
      Function.update (c.ofCells fun cell => some (p cell)) id (some (g v)) := by
  obtain ⟨cell, hcell, hv⟩ := Option.bind_eq_some_iff.mp h
  cases hv
  rw [ofCells_changeCell _ hcell, hp]

theorem ofCells_changeCell_same {f : Cell → Option α} (id : CellId) {change : Cell → Cell}
    (hf : ∀ cell, f (change cell) = f cell) :
    (c.changeCell id change).ofCells f = c.ofCells f := by
  funext x
  by_cases hx : x = id
  · subst hx
    cases h : c.cell? x <;> simp [ofCells, cell?_changeCell, h, hf]
  · simp [ofCells, cell?_changeCell, hx]

theorem ofWires_changeCell (f : Wire → Option α) (id : CellId) (change : Cell → Cell) :
    (c.changeCell id change).ofWires f = c.ofWires f := by
  funext x
  simp [ofWires, wire?_changeCell]

theorem ofWires_changeWire (f : Wire → Option α) {id : WireId} {wire : Wire}
    (h : c.wire? id = some wire) (change : Wire → Wire) :
    (c.changeWire id change).ofWires f = Function.update (c.ofWires f) id (f (change wire)) := by
  funext x
  by_cases hx : x = id
  · subst hx
    simp [ofWires, wire?_changeWire, h]
  · rw [Function.update_of_ne hx]
    simp [ofWires, wire?_changeWire, hx]

theorem ofWires_changeWire_same {f : Wire → Option α} (id : WireId) {change : Wire → Wire}
    (hf : ∀ wire, f (change wire) = f wire) :
    (c.changeWire id change).ofWires f = c.ofWires f := by
  funext x
  by_cases hx : x = id
  · subst hx
    cases h : c.wire? x <;> simp [ofWires, wire?_changeWire, h, hf]
  · simp [ofWires, wire?_changeWire, hx]

theorem ofCells_changeWire (f : Cell → Option α) (id : WireId) (change : Wire → Wire) :
    (c.changeWire id change).ofCells f = c.ofCells f := by
  funext x
  simp [ofCells, cell?_changeWire]

theorem ofCells_put_cell (f : Cell → Option α) (id : CellId) (cell : Cell) :
    (c.put id (.cell cell)).ofCells f = Function.update (c.ofCells f) id (f cell) := by
  funext x
  by_cases hx : x = id
  · subst hx
    simp [ofCells, cell?_put_cell]
  · rw [Function.update_of_ne hx]
    simp [ofCells, cell?_put_cell, hx]

theorem ofWires_put_cell (f : Wire → Option α) {id : CellId} (h : c.live.get? id = none)
    (cell : Cell) : (c.put id (.cell cell)).ofWires f = c.ofWires f := by
  funext x
  by_cases hx : x.toId = id.toId
  · simp [ofWires, wire?, get?_put, hx, h]
  · simp [ofWires, wire?, get?_put, hx]

theorem ofWires_put_wire (f : Wire → Option α) (id : WireId) (wire : Wire) :
    (c.put id (.wire wire)).ofWires f = Function.update (c.ofWires f) id (f wire) := by
  funext x
  by_cases hx : x = id
  · subst hx
    simp [ofWires, wire?, get?_put]
  · have hid : x.toId ≠ id.toId := fun h => hx (WireId.toId_inj.mp h)
    rw [Function.update_of_ne hx]
    simp [ofWires, wire?, get?_put, hid]

theorem ofCells_put_wire (f : Cell → Option α) {id : WireId} (h : c.live.get? id = none)
    (wire : Wire) : (c.put id (.wire wire)).ofCells f = c.ofCells f := by
  funext x
  simp [ofCells, cell?_put_wire h]

/-- A removed wire has no properties left. -/
theorem ofWires_retired_wire (f : Wire → Option α) (removal : Removal) (id : WireId) :
    (c.retired removal id).ofWires f = Function.update (c.ofWires f) id none := by
  funext x
  rw [ofWires, wire?_retired_wire, Function.update_apply]
  split <;> rfl

theorem ofCells_retired_wire (f : Cell → Option α) (removal : Removal) {id : WireId} {wire : Wire}
    (h : c.wire? id = some wire) : (c.retired removal id).ofCells f = c.ofCells f := by
  funext x
  rw [ofCells, ofCells, cell?_retired_wire h]

end Properties

/-! ## Many rows at once -/

/-- The circuit without the rows of the given cells. -/
def dropAll (c : Circuit) (removal : Removal) (ids : List CellId) : Circuit :=
  ids.foldl (fun c id => c.retired removal id.toId) c

theorem get?_dropAll (c : Circuit) (removal : Removal) (ids : List CellId) (k : Id) :
    (c.dropAll removal ids).live.get? k =
      if k ∈ ids.map CellId.toId then none else c.live.get? k := by
  induction ids generalizing c with
  | nil => simp [dropAll]
  | cons id ids ih =>
    rw [dropAll, List.foldl_cons]
    have hrest := ih (c.retired removal id.toId)
    rw [dropAll] at hrest
    rw [hrest, get?_retired]
    by_cases hk : k = id.toId <;> simp [hk]

theorem mem_map_toId {ids : List CellId} {id : CellId} : id.toId ∈ ids.map CellId.toId ↔ id ∈ ids := by
  simp [List.mem_map, CellId.toId_inj]

theorem cell?_dropAll (c : Circuit) (removal : Removal) (ids : List CellId) (x : CellId) :
    (c.dropAll removal ids).cell? x = if x ∈ ids then none else c.cell? x := by
  by_cases hx : x ∈ ids <;> simp [cell?, get?_dropAll, mem_map_toId, hx]

theorem wire?_dropAll {c : Circuit} (removal : Removal) {ids : List CellId}
    (hlive : ∀ id ∈ ids, ∃ cell, c.cell? id = some cell) (x : WireId) :
    (c.dropAll removal ids).wire? x = c.wire? x := by
  by_cases hx : x.toId ∈ ids.map CellId.toId
  · -- a row of this id is dropped, but it was no wire
    obtain ⟨id, hid, hsame⟩ := List.mem_map.mp hx
    obtain ⟨cell, hcell⟩ := hlive id hid
    rw [cell?_eq_some_iff, hsame] at hcell
    simp only [wire?, get?_dropAll, hx, hcell, if_true]
  · simp only [wire?, get?_dropAll, hx, if_false]

theorem ofCells_dropAll {α : Type} {c : Circuit} (f : Cell → Option α) (removal : Removal)
    (ids : List CellId) :
    (c.dropAll removal ids).ofCells f = fun x => if x ∈ ids then none else c.ofCells f x := by
  funext x
  rw [ofCells, cell?_dropAll]
  split <;> rfl

theorem ofWires_dropAll {α : Type} {c : Circuit} (f : Wire → Option α) (removal : Removal)
    {ids : List CellId} (hlive : ∀ id ∈ ids, ∃ cell, c.cell? id = some cell) :
    (c.dropAll removal ids).ofWires f = c.ofWires f := by
  funext x
  rw [ofWires, ofWires, wire?_dropAll removal hlive]

/-- The circuit with all its cells changed. -/
def mapCells (c : Circuit) (change : Cell → Cell) : Circuit :=
  { c with
    live := c.live.map fun _ row =>
      match row with
      | .cell cell => .cell (change cell)
      | .wire wire => .wire wire }

theorem cell?_mapCells (c : Circuit) (change : Cell → Cell) (id : CellId) :
    (c.mapCells change).cell? id = (c.cell? id).map change := by
  unfold cell?
  rw [mapCells, Table.get?_map]
  rcases c.live.get? id with - | (cell | wire) <;> rfl

theorem wire?_mapCells (c : Circuit) (change : Cell → Cell) (id : WireId) :
    (c.mapCells change).wire? id = c.wire? id := by
  unfold wire?
  rw [mapCells, Table.get?_map]
  rcases c.live.get? id with - | (cell | wire) <;> rfl

theorem ofCells_mapCells {α : Type} {c : Circuit} {f : Cell → Option α} {change : Cell → Cell}
    (hf : ∀ cell, f (change cell) = f cell) : (c.mapCells change).ofCells f = c.ofCells f := by
  funext id
  rw [ofCells, ofCells, cell?_mapCells]
  cases c.cell? id with
  | none => rfl
  | some cell => exact hf cell

theorem ofWires_mapCells {α : Type} (c : Circuit) (f : Wire → Option α) (change : Cell → Cell) :
    (c.mapCells change).ofWires f = c.ofWires f := by
  funext id
  rw [ofWires, ofWires, wire?_mapCells]

theorem mapCells_mapCells (c : Circuit) (change more : Cell → Cell) :
    (c.mapCells change).mapCells more = c.mapCells fun cell => more (change cell) := by
  simp only [mapCells, Table.map_map]
  congr 2
  funext id row
  cases row <;> rfl

/-- It only matters what becomes of the live cells. -/
theorem mapCells_congr {c : Circuit} {change other : Cell → Cell}
    (h : ∀ {id cell}, c.cell? id = some cell → change cell = other cell) :
    c.mapCells change = c.mapCells other := by
  simp only [mapCells]
  congr 1
  refine Table.map_congr ?_
  rintro ⟨id, cell | wire⟩ hrow
  · have hcell : c.cell? ⟨id.raw⟩ = some cell :=
      cell?_eq_some_iff.mpr (Table.get?_eq_some_iff.mpr hrow)
    exact congrArg Row.cell (h hcell)
  · rfl

theorem mapCells_id (c : Circuit) : (c.mapCells fun cell => cell) = c := by
  have hlive : (c.mapCells fun cell => cell).live = c.live.map fun _ row => row := by
    dsimp only [mapCells]
    refine Table.map_congr ?_
    rintro ⟨id, cell | wire⟩ - <;> rfl
  calc (c.mapCells fun cell => cell)
    _ = { c with live := (c.mapCells fun cell => cell).live } := rfl
    _ = c := by rw [hlive, Table.map_id]

theorem mapCells_eq_self {c : Circuit} {change : Cell → Cell}
    (h : ∀ {id cell}, c.cell? id = some cell → change cell = cell) : c.mapCells change = c :=
  (mapCells_congr h).trans c.mapCells_id

end Circuit

end PulseCircuit
