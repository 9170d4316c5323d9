import Mathlib.Data.List.Nodup
import PulseCircuit.Proofs.Lookup
import PulseCircuit.Scene.Build

/-!
# Blueprints

What a scene describes, drawn at once from the lists of its declarations: cells are numbered from `1` on and wires
from `-1` down, a name stands for its place among the names, and what hangs on a cell are the places at which other
declarations mention its name.

A blueprint is drawn in two parts. The sketches of the cells say what is fixed when a cell is declared, and a
function from names says what has been attached to each. So one more declaration is one more sketch or wire, and an
update of that function:

* `put_cell_sheet`, `put_wire_sheet`: one more cell, one more wire;
* `changeCell_sheet`: something is attached to a cell;
* `attached_cell`, `attached_wire`, `attached_pulse`: what one more declaration attaches;
* `sheet_add_cell`, `sheet_add_wire`, `sheet_add_pulse`: so the changes that an edit makes lead from one blueprint to
  the next.
-/

namespace PulseCircuit

namespace Scene

/-! ## Names -/

/-- The names that are known once some cells are declared. -/
def knownNames (cells : List DeclaredCell) : List String := rootName :: cells.map (·.name)

/-- The name of the cell that another one is declared below. -/
def DeclaredCell.above (cell : DeclaredCell) : String := cell.parent.getD rootName

/-- The id of a cell by its place among the names. The root comes before all cells. -/
def cellAt (i : Nat) : CellId := ⟨i⟩

/-- The id of a wire by its place among the wires, from `1` on. -/
def wireAt (j : Nat) : WireId := ⟨-j⟩

def seatOf (cells : List DeclaredCell) (name : String) : CellId := cellAt ((knownNames cells).idxOf name)

theorem cellAt_inj {i j : Nat} : cellAt i = cellAt j ↔ i = j := by
  rw [cellAt, cellAt, CellId.mk.injEq, Int.natCast_inj]

theorem wireAt_inj {i j : Nat} : wireAt i = wireAt j ↔ i = j := by
  rw [wireAt, wireAt, WireId.mk.injEq, Int.neg_inj, Int.natCast_inj]

theorem cellAt_ne_wireAt (i j : Nat) : (cellAt i).toId ≠ (wireAt (j + 1)).toId := by
  simp only [cellAt, wireAt, CellId.toId, WireId.toId, ne_eq, Id.mk.injEq]
  omega

section Names

variable {cells : List DeclaredCell} {name other : String}

theorem knownNames_concat (cells : List DeclaredCell) (cell : DeclaredCell) :
    knownNames (cells ++ [cell]) = knownNames cells ++ [cell.name] := by
  rw [knownNames, List.map_append]
  rfl

theorem nodup_knownNames_concat {cell : DeclaredCell} :
    (knownNames (cells ++ [cell])).Nodup ↔ (knownNames cells).Nodup ∧ cell.name ∉ knownNames cells := by
  rw [knownNames_concat, ← List.concat_eq_append, List.nodup_concat, and_comm]

theorem length_knownNames (cells : List DeclaredCell) : (knownNames cells).length = cells.length + 1 := by
  rw [knownNames, List.length_cons, List.length_map]

theorem seatOf_root (cells : List DeclaredCell) : seatOf cells rootName = .root := by
  rw [seatOf, knownNames, List.idxOf_cons_self]
  rfl

theorem seatOf_concat_of_mem (h : name ∈ knownNames cells) (cell : DeclaredCell) :
    seatOf (cells ++ [cell]) name = seatOf cells name := by
  rw [seatOf, seatOf, knownNames_concat, List.idxOf_append_of_mem h]

theorem seatOf_inj (h : name ∈ knownNames cells) : seatOf cells name = seatOf cells other ↔ name = other :=
  cellAt_inj.trans (List.idxOf_inj h)

end Names

/-! ## Sketches -/

/-- What depends only on the place of an entry. -/
theorem map_mapIdx_eq_range {α β γ : Type} (xs : List α) {f : Nat → α → β} {g : β → γ} {place : Nat → γ}
    (h : ∀ i x, g (f i x) = place i) : (xs.mapIdx f).map g = (List.range xs.length).map place := by
  refine List.ext_getElem? fun i => ?_
  rw [List.getElem?_map, List.getElem?_map, List.getElem?_mapIdx, Option.map_map]
  by_cases hi : i < xs.length
  · rw [List.getElem?_range hi, List.getElem?_eq_getElem hi]
    exact congrArg some (h i _)
  · rw [List.getElem?_eq_none (Nat.le_of_not_lt hi), List.getElem?_eq_none (by simpa using hi)]
    rfl

/-- What hangs on a cell. -/
structure Attached where
  children : List CellId
  inputs : List WireId
  outputs : List WireId
  fire : Fire

/-- Nothing hangs on the cell. -/
def Attached.bare : Attached := ⟨[], [], [], .none⟩

/-- A cell without what hangs on it. -/
structure Sketch where
  name : String
  id : CellId
  parent : Option CellId
  kind : CellKind
  position : Position

def Sketch.draw (sketch : Sketch) (attached : Attached) : Cell where
  id := sketch.id
  parent := sketch.parent
  kind := sketch.kind
  position := sketch.position
  children := attached.children
  inputs := attached.inputs
  outputs := attached.outputs
  fire := attached.fire
  tags := []

/-- The sketches of the root and of the declared cells, in this order. -/
def sketches (cells : List DeclaredCell) : List Sketch :=
  ⟨rootName, .root, none, .relay, .origin⟩ ::
    cells.mapIdx fun i cell =>
      ⟨cell.name, cellAt (i + 1), some (seatOf cells cell.above), cell.kind, cell.position⟩

section Sketches

variable {cells : List DeclaredCell} {sketch : Sketch}

theorem getElem?_sketches (cells : List DeclaredCell) (i : Nat) :
    (sketches cells)[i + 1]? = cells[i]?.map fun cell =>
      ⟨cell.name, cellAt (i + 1), some (seatOf cells cell.above), cell.kind, cell.position⟩ := by
  rw [sketches, List.getElem?_cons_succ, List.getElem?_mapIdx]

theorem names_sketches (cells : List DeclaredCell) : (sketches cells).map (·.name) = knownNames cells := by
  rw [sketches, knownNames, List.map_cons]
  congr 1
  refine List.ext_getElem? fun i => ?_
  rw [List.getElem?_map, List.getElem?_map, List.getElem?_mapIdx, Option.map_map]
  rfl

theorem ids_sketches (cells : List DeclaredCell) :
    (sketches cells).map (·.id) = (List.range (cells.length + 1)).map cellAt := by
  rw [List.range_succ_eq_map, List.map_cons, List.map_map, sketches, List.map_cons]
  exact congrArg _ (map_mapIdx_eq_range cells fun _ _ => rfl)

theorem Sketch.name_mem (h : sketch ∈ sketches cells) : sketch.name ∈ knownNames cells := by
  rw [← names_sketches]
  exact List.mem_map_of_mem h

/-- A sketch has the id that its name stands for. -/
theorem Sketch.id_eq (hnodup : (knownNames cells).Nodup) (h : sketch ∈ sketches cells) :
    sketch.id = seatOf cells sketch.name := by
  rcases List.mem_cons.mp h with rfl | hdeclared
  · exact (seatOf_root cells).symm
  · obtain ⟨i, hi, rfl⟩ := List.mem_mapIdx.mp hdeclared
    have hlength : i + 1 < (knownNames cells).length := by rwa [length_knownNames, Nat.add_lt_add_iff_right]
    have hname : (knownNames cells)[i + 1] = cells[i].name := by simp [knownNames]
    have hplace := hnodup.idxOf_getElem (i + 1) hlength
    rw [hname] at hplace
    exact congrArg cellAt hplace.symm

theorem exists_sketch {name : String} (h : name ∈ knownNames cells) :
    ∃ sketch ∈ sketches cells, sketch.name = name := by
  rw [← names_sketches] at h
  exact List.mem_map.mp h

theorem Sketch.ext_of_name (hnodup : (knownNames cells).Nodup) (h : sketch ∈ sketches cells) {other : Sketch}
    (hother : other ∈ sketches cells) (hname : sketch.name = other.name) : sketch = other := by
  rw [← names_sketches] at hnodup
  exact List.inj_on_of_nodup_map hnodup h hother hname

/-- One more sketch, if no earlier cell was declared below the new one. -/
theorem sketches_concat (habove : ∀ cell ∈ cells, cell.above ∈ knownNames cells) {cell : DeclaredCell}
    (hcell : cell.above ∈ knownNames cells) :
    sketches (cells ++ [cell]) = sketches cells ++
      [⟨cell.name, cellAt (cells.length + 1), some (seatOf cells cell.above), cell.kind, cell.position⟩] := by
  rw [sketches, List.mapIdx_concat, seatOf_concat_of_mem hcell, sketches, List.cons_append]
  congr 2
  refine List.mapIdx_eq_mapIdx_iff.mpr fun i hi => ?_
  rw [seatOf_concat_of_mem (habove _ (List.getElem_mem hi))]

end Sketches

/-! ## Sheets -/

/-- The wires, as they run between the cells. -/
def drawnWires (cells : List DeclaredCell) (wires : List DeclaredWire) : List Wire :=
  wires.mapIdx fun j wire =>
    ⟨wireAt (j + 1), seatOf cells wire.source, seatOf cells wire.target, wire.colour, wire.timing⟩

def cellRow (look : String → Attached) (sketch : Sketch) : Id × Row :=
  (sketch.id, .cell (sketch.draw (look sketch.name)))

def wireRow (wire : Wire) : Id × Row := (wire.id, .wire wire)

section Sheets

variable (cells : List DeclaredCell) (wires : List DeclaredWire) (look : String → Attached)

/-- The rows of the cells and of the wires, in the order of their declarations. -/
def rows : List (Id × Row) := (sketches cells).map (cellRow look) ++ (drawnWires cells wires).map wireRow

theorem keys_rows : (rows cells wires look).map Prod.fst =
    (List.range (cells.length + 1)).map (fun i => (cellAt i).toId) ++
      (List.range wires.length).map fun j => (wireAt (j + 1)).toId := by
  have hwires : (drawnWires cells wires).map (·.id) =
      (List.range wires.length).map fun j => wireAt (j + 1) :=
    map_mapIdx_eq_range wires fun _ _ => rfl
  have hcells := congrArg (List.map CellId.toId) (ids_sketches cells)
  have hfeeds := congrArg (List.map WireId.toId) hwires
  rw [List.map_map, List.map_map] at hcells hfeeds
  rw [rows, List.map_append, List.map_map, List.map_map]
  exact congrArg₂ (· ++ ·) hcells hfeeds

theorem nodup_rows : ((rows cells wires look).map Prod.fst).Nodup := by
  rw [keys_rows, List.nodup_append]
  refine ⟨List.nodup_range.map fun i j h => ?_, List.nodup_range.map fun i j h => ?_, ?_⟩
  · exact cellAt_inj.mp (CellId.toId_inj.mp h)
  · exact Nat.succ_inj.mp (wireAt_inj.mp (WireId.toId_inj.mp h))
  · intro id hid other hother
    obtain ⟨i, -, rfl⟩ := List.mem_map.mp hid
    obtain ⟨j, -, rfl⟩ := List.mem_map.mp hother
    exact cellAt_ne_wireAt i j

/-- The circuit of some cells and wires, given what hangs on the cells. -/
def sheet : Circuit where
  live := ⟨rows cells wires look, nodup_rows cells wires look⟩
  archive := .empty
  ids := ⟨cells.length + 1, -(wires.length + 1), [], [], []⟩

end Sheets

section Changes

variable {cells : List DeclaredCell} {wires : List DeclaredWire} {look : String → Attached}

theorem cell?_sheet {sketch : Sketch} (h : sketch ∈ sketches cells) :
    (sheet cells wires look).cell? sketch.id = some (sketch.draw (look sketch.name)) := by
  rw [Circuit.cell?_eq_some_iff, Table.get?_eq_some_iff]
  exact List.mem_append_left _ (List.mem_map.mpr ⟨sketch, h, rfl⟩)

theorem wire?_sheet {wire : Wire} (h : wire ∈ drawnWires cells wires) :
    (sheet cells wires look).wire? wire.id = some wire := by
  rw [Circuit.wire?_eq_some_iff, Table.get?_eq_some_iff]
  exact List.mem_append_right _ (List.mem_map.mpr ⟨wire, h, rfl⟩)

/-- There is a cell for each known name. -/
theorem exists_cell?_sheet (hnodup : (knownNames cells).Nodup) {name : String} (h : name ∈ knownNames cells) :
    ∃ cell, (sheet cells wires look).cell? (seatOf cells name) = some cell := by
  obtain ⟨sketch, hsketch, rfl⟩ := exists_sketch h
  rw [← Sketch.id_eq hnodup hsketch]
  exact ⟨_, cell?_sheet hsketch⟩

/-- One more cell is put below the others. -/
theorem put_cell_sheet (look : String → Attached) (habove : ∀ cell ∈ cells, cell.above ∈ knownNames cells)
    {cell : DeclaredCell} (hcell : cell.above ∈ knownNames cells) (hnew : cell.name ∉ knownNames cells) :
    { sheet cells [] look with ids := (sheet cells [] look).ids.takeCell.2 }.put (cellAt (cells.length + 1))
        (.cell (.fresh (cellAt (cells.length + 1)) (some (seatOf cells cell.above)) cell.kind cell.position)) =
      sheet (cells ++ [cell]) [] (Function.update look cell.name .bare) := by
  have hkey : (cellAt (cells.length + 1)).toId ∉ (sheet cells [] look).live.keys := by
    show _ ∉ (rows cells [] look).map Prod.fst
    rw [keys_rows]
    rintro hmem
    rcases List.mem_append.mp hmem with hmem | hmem
    · obtain ⟨i, hi, hsame⟩ := List.mem_map.mp hmem
      have hplace := cellAt_inj.mp (CellId.toId_inj.mp hsame)
      exact absurd (List.mem_range.mp hi) (by omega)
    · cases hmem
  -- nothing hangs on the new cell, and what hangs on the others stays
  have hold : (sketches cells).map (cellRow look) =
      (sketches cells).map (cellRow (Function.update look cell.name .bare)) := by
    refine List.map_congr_left fun sketch hsketch => ?_
    have hne : sketch.name ≠ cell.name := fun hsame => hnew (hsame ▸ Sketch.name_mem hsketch)
    rw [cellRow, cellRow, Function.update_of_ne hne]
  have hrows : ((sheet cells [] look).live.insert (cellAt (cells.length + 1)) (.cell (.fresh
      (cellAt (cells.length + 1)) (some (seatOf cells cell.above)) cell.kind cell.position))).rows =
      rows (cells ++ [cell]) [] (Function.update look cell.name .bare) := by
    rw [Table.rows_insert_of_not_mem _ hkey, rows, sketches_concat habove hcell, List.map_append, ← hold]
    show rows cells [] look ++ _ = _
    rw [rows, List.append_assoc, List.append_assoc, List.map_singleton, cellRow, Function.update_self]
    rfl
  rw [Circuit.put, sheet]
  congr 1
  · exact Table.ext hrows
  · simp [IdPool.takeCell]

/-- One more wire is put below the others. -/
theorem put_wire_sheet (cells : List DeclaredCell) (wires : List DeclaredWire) (look : String → Attached)
    (wire : DeclaredWire) :
    { sheet cells wires look with ids := (sheet cells wires look).ids.takeWire.2 }.put
        (wireAt (wires.length + 1))
        (.wire ⟨wireAt (wires.length + 1), seatOf cells wire.source, seatOf cells wire.target, wire.colour,
          wire.timing⟩) =
      sheet cells (wires ++ [wire]) look := by
  have hkey : (wireAt (wires.length + 1)).toId ∉ (sheet cells wires look).live.keys := by
    show _ ∉ (rows cells wires look).map Prod.fst
    rw [keys_rows]
    rintro hmem
    rcases List.mem_append.mp hmem with hmem | hmem
    · obtain ⟨i, -, hsame⟩ := List.mem_map.mp hmem
      exact cellAt_ne_wireAt i wires.length hsame
    · obtain ⟨j, hj, hsame⟩ := List.mem_map.mp hmem
      have hplace := wireAt_inj.mp (WireId.toId_inj.mp hsame)
      exact absurd (List.mem_range.mp hj) (by omega)
  have hrows : ((sheet cells wires look).live.insert (wireAt (wires.length + 1)) (.wire
      ⟨wireAt (wires.length + 1), seatOf cells wire.source, seatOf cells wire.target, wire.colour,
        wire.timing⟩)).rows = rows cells (wires ++ [wire]) look := by
    rw [Table.rows_insert_of_not_mem _ hkey, rows, drawnWires, List.mapIdx_concat, List.map_append,
      ← List.append_assoc]
    rfl
  rw [Circuit.put, sheet]
  congr 1
  · exact Table.ext hrows
  · simp [IdPool.takeWire]
    omega

/-- What is attached to one cell is drawn there and nowhere else. -/
theorem changeCell_sheet (hnodup : (knownNames cells).Nodup) {name : String} (h : name ∈ knownNames cells)
    (change : Cell → Cell) (attach : Attached → Attached)
    (hdraw : ∀ sketch attached, change (Sketch.draw sketch attached) = sketch.draw (attach attached)) :
    (sheet cells wires look).changeCell (seatOf cells name) change =
      sheet cells wires (Function.update look name (attach (look name))) := by
  obtain ⟨sketch, hsketch, rfl⟩ := exists_sketch h
  rw [← Sketch.id_eq hnodup hsketch]
  have hcells : ∀ other ∈ sketches cells,
      (if other.id.toId = sketch.id.toId then .cell (change (sketch.draw (look sketch.name)))
        else .cell (other.draw (look other.name)) : Row) =
        .cell (other.draw (Function.update look sketch.name (attach (look sketch.name)) other.name)) := by
    intro other hother
    by_cases hname : other.name = sketch.name
    · obtain rfl := Sketch.ext_of_name hnodup hother hsketch hname
      rw [if_pos rfl, Function.update_self, hdraw]
    · rw [Function.update_of_ne hname, if_neg]
      rwa [CellId.toId_inj, Sketch.id_eq hnodup hother, Sketch.id_eq hnodup hsketch,
        seatOf_inj (Sketch.name_mem hother)]
  have hwires : ∀ wire ∈ drawnWires cells wires, wire.id.toId ≠ sketch.id.toId := by
    intro wire hwire hsame
    obtain ⟨j, hj, rfl⟩ := List.mem_mapIdx.mp hwire
    rw [Sketch.id_eq hnodup hsketch] at hsame
    exact cellAt_ne_wireAt _ j hsame.symm
  have hrows : ((sheet cells wires look).live.update sketch.id fun _ =>
      .cell (change (sketch.draw (look sketch.name)))).rows =
      rows cells wires (Function.update look sketch.name (attach (look sketch.name))) := by
    simp only [Table.update, Table.map, sheet]
    rw [rows, rows, List.map_append, List.map_map, List.map_map]
    congr 1
    · exact List.map_congr_left fun other hother => congrArg (Prod.mk _) (hcells other hother)
    · exact List.map_congr_left fun wire hwire => congrArg (Prod.mk _) (if_neg (hwires wire hwire))
  rw [Circuit.changeCell, cell?_sheet hsketch]
  show ({ sheet cells wires look with live := _ } : Circuit) = _
  rw [Table.ext hrows (t := ⟨_, nodup_rows cells wires _⟩)]
  rfl

end Changes

/-! ## What declarations attach -/

/-- The last pulse that is declared for a cell and a colour, which carries nothing. -/
def lastPulse? (scene : Scene) (name : String) (colour : Colour) : Option Pulse :=
  (scene.pulses.reverse.find? fun pulse => pulse.cell = name ∧ pulse.colour = colour).map fun pulse =>
    .ofKind pulse.pulse

/-- What the declarations that mention a name attach to its cell. -/
def attached (scene : Scene) (name : String) : Attached where
  children := (scene.cells.findIdxs (·.above = name) 1).map cellAt
  inputs := (scene.wires.findIdxs (·.target = name) 1).map wireAt
  outputs := (scene.wires.findIdxs (·.source = name) 1).map wireAt
  fire := ⟨scene.lastPulse? name .red, scene.lastPulse? name .green, scene.lastPulse? name .blue⟩

section Attaching

variable (cells : List DeclaredCell) (wires : List DeclaredWire) (pulses : List DeclaredPulse)

/-- Nothing hangs on a cell that was not mentioned. -/
theorem attached_of_new {cells : List DeclaredCell} {name : String} (hnew : ∀ cell ∈ cells, cell.above ≠ name) :
    attached ⟨cells, [], []⟩ name = .bare := by
  have hnone : cells.findIdxs (·.above = name) 1 = [] := by
    rw [List.findIdxs_eq_nil_iff]
    intro cell hcell
    simpa using hnew cell hcell
  rw [attached, hnone]
  rfl

theorem attached_cell (cell : DeclaredCell) :
    attached ⟨cells ++ [cell], wires, pulses⟩ =
      Function.update (attached ⟨cells, wires, pulses⟩) cell.above
        { attached ⟨cells, wires, pulses⟩ cell.above with
          children := (attached ⟨cells, wires, pulses⟩ cell.above).children ++ [cellAt (cells.length + 1)] } := by
  funext name
  by_cases hname : name = cell.above
  · subst hname
    simp [attached, lastPulse?, List.findIdxs_append, Nat.add_comm]
  · simp [attached, lastPulse?, List.findIdxs_append, hname, Ne.symm hname]

theorem attached_wire (wire : DeclaredWire) :
    attached ⟨cells, wires ++ [wire], pulses⟩ =
      let left := attached ⟨cells, wires, pulses⟩ wire.source
      let leaving := Function.update (attached ⟨cells, wires, pulses⟩) wire.source
        { left with outputs := left.outputs ++ [wireAt (wires.length + 1)] }
      let reached := leaving wire.target
      Function.update leaving wire.target
        { reached with inputs := reached.inputs ++ [wireAt (wires.length + 1)] } := by
  funext name
  -- a wire may start and end at the same cell
  by_cases htarget : name = wire.target
  · subst htarget
    by_cases hsource : wire.target = wire.source
    · simp [attached, lastPulse?, List.findIdxs_append, Nat.add_comm, ← hsource]
    · simp [attached, lastPulse?, List.findIdxs_append, Nat.add_comm, hsource, Ne.symm hsource]
  · by_cases hsource : name = wire.source
    · subst hsource
      simp [attached, lastPulse?, List.findIdxs_append, Nat.add_comm, htarget, Ne.symm htarget]
    · simp [attached, lastPulse?, List.findIdxs_append, htarget, Ne.symm htarget, hsource, Ne.symm hsource]

theorem lastPulse?_concat (pulse : DeclaredPulse) (name : String) (colour : Colour) :
    lastPulse? ⟨cells, wires, pulses ++ [pulse]⟩ name colour =
      if pulse.cell = name ∧ pulse.colour = colour then some (.ofKind pulse.pulse)
      else lastPulse? ⟨cells, wires, pulses⟩ name colour := by
  rw [lastPulse?, List.reverse_append, List.reverse_singleton, List.singleton_append, List.find?_cons]
  by_cases h : pulse.cell = name ∧ pulse.colour = colour
  · simp [h]
  · rw [if_neg h, decide_eq_false h]
    rfl

theorem attached_pulse (pulse : DeclaredPulse) :
    attached ⟨cells, wires, pulses ++ [pulse]⟩ =
      Function.update (attached ⟨cells, wires, pulses⟩) pulse.cell
        { attached ⟨cells, wires, pulses⟩ pulse.cell with
          fire := (attached ⟨cells, wires, pulses⟩ pulse.cell).fire.set pulse.colour
            (some (.ofKind pulse.pulse)) } := by
  funext name
  by_cases hname : name = pulse.cell
  · subst hname
    cases hcolour : pulse.colour <;> simp [attached, lastPulse?_concat, hcolour, Fire.set]
  · simp [attached, lastPulse?_concat, hname, Ne.symm hname]

end Attaching

/-! ## One more declaration -/

section Adding

variable {cells : List DeclaredCell} {wires : List DeclaredWire} {pulses : List DeclaredPulse}

/-- One more cell is created below a cell. -/
theorem sheet_add_cell (hnodup : (knownNames cells).Nodup) (habove : ∀ cell ∈ cells, cell.above ∈ knownNames cells)
    {cell : DeclaredCell} (hcell : cell.above ∈ knownNames cells) (hnew : cell.name ∉ knownNames cells) :
    ({ sheet cells [] (attached ⟨cells, [], []⟩) with
        ids := (sheet cells [] (attached ⟨cells, [], []⟩)).ids.takeCell.2 }.put (cellAt (cells.length + 1))
        (.cell (.fresh (cellAt (cells.length + 1)) (some (seatOf cells cell.above)) cell.kind
          cell.position))).changeCell (seatOf cells cell.above)
        (fun above => { above with children := above.children ++ [cellAt (cells.length + 1)] }) =
      sheet (cells ++ [cell]) [] (attached ⟨cells ++ [cell], [], []⟩) := by
  -- nothing was declared below the new cell yet
  have hbare : Function.update (attached ⟨cells, [], []⟩) cell.name .bare = attached ⟨cells, [], []⟩ := by
    refine Function.update_eq_self_iff.mpr (attached_of_new fun other hother hsame => hnew ?_).symm
    exact hsame ▸ habove other hother
  have hnodup' := nodup_knownNames_concat.mpr ⟨hnodup, hnew⟩
  have hknown : cell.above ∈ knownNames (cells ++ [cell]) := by
    rw [knownNames_concat]
    exact List.mem_append_left _ hcell
  have hput := put_cell_sheet (attached ⟨cells, [], []⟩) habove hcell hnew
  rw [hbare] at hput
  rw [attached_cell, ← changeCell_sheet hnodup' hknown
    (fun above => { above with children := above.children ++ [cellAt (cells.length + 1)] })
    (fun above => { above with children := above.children ++ [cellAt (cells.length + 1)] })
    fun _ _ => rfl, seatOf_concat_of_mem hcell]
  rw [hput]

/-- One more wire is created between two cells. -/
theorem sheet_add_wire (hnodup : (knownNames cells).Nodup) {wire : DeclaredWire}
    (hsource : wire.source ∈ knownNames cells) (htarget : wire.target ∈ knownNames cells) :
    ((({ sheet cells wires (attached ⟨cells, wires, []⟩) with
        ids := (sheet cells wires (attached ⟨cells, wires, []⟩)).ids.takeWire.2 }.put (wireAt (wires.length + 1))
        (.wire ⟨wireAt (wires.length + 1), seatOf cells wire.source, seatOf cells wire.target, wire.colour,
          wire.timing⟩)).changeCell (seatOf cells wire.source)
        fun source => { source with outputs := source.outputs ++ [wireAt (wires.length + 1)] }).changeCell
        (seatOf cells wire.target)
        fun target => { target with inputs := target.inputs ++ [wireAt (wires.length + 1)] }) =
      sheet cells (wires ++ [wire]) (attached ⟨cells, wires ++ [wire], []⟩) := by
  rw [put_wire_sheet, changeCell_sheet hnodup hsource _
      (fun left => { left with outputs := left.outputs ++ [wireAt (wires.length + 1)] }) fun _ _ => rfl,
    changeCell_sheet hnodup htarget _
      (fun reached => { reached with inputs := reached.inputs ++ [wireAt (wires.length + 1)] }) fun _ _ => rfl,
    attached_wire]

/-- One more pulse is stored on a cell. -/
theorem sheet_add_pulse (hnodup : (knownNames cells).Nodup) {pulse : DeclaredPulse}
    (hcell : pulse.cell ∈ knownNames cells) :
    ((sheet cells wires (attached ⟨cells, wires, pulses⟩)).changeCell (seatOf cells pulse.cell) fun cell =>
        { cell with fire := cell.fire.set pulse.colour (some (.ofKind pulse.pulse)) }) =
      sheet cells wires (attached ⟨cells, wires, pulses ++ [pulse]⟩) := by
  rw [attached_pulse]
  exact changeCell_sheet hnodup hcell _ (fun holder =>
    { holder with fire := holder.fire.set pulse.colour (some (.ofKind pulse.pulse)) }) fun _ _ => rfl

end Adding

end Scene

end PulseCircuit
