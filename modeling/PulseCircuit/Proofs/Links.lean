import PulseCircuit.Proofs.Lookup
import PulseCircuit.Proofs.Mutual

/-!
# The links of a circuit

`Linked` is the invariant that ties the rows of a circuit together: each row lies under the id it
carries, the cells form a tree below the root, and every wire is listed by the cells at its ends and
by no others. This module proves that every change an edit is made of keeps it, as long as the two
sides of a link are changed together.
-/

namespace PulseCircuit

/-- Two versions of a cell with the same id and the same links. -/
structure Cell.SameLinks (new old : Cell) : Prop where
  id : new.id = old.id
  parent : new.parent = old.parent
  children : new.children = old.children
  inputs : new.inputs = old.inputs
  outputs : new.outputs = old.outputs

theorem Cell.sameLinks_restyle (patch : CellPatch) (cell : Cell) : (cell.restyle patch).SameLinks cell :=
  ⟨rfl, rfl, rfl, rfl, rfl⟩

/-- Two versions of a wire with the same id and the same ends. -/
structure Wire.SameEnds (new old : Wire) : Prop where
  id : new.id = old.id
  source : new.source = old.source
  target : new.target = old.target

namespace Circuit

/-! ## The two sides of each link -/

def childrenOf (c : Circuit) : CellId → Option (List CellId) :=
  c.ofCells fun cell => some cell.children

def parentOf (c : Circuit) : CellId → Option CellId := c.ofCells (·.parent)

def outputsOf (c : Circuit) : CellId → Option (List WireId) :=
  c.ofCells fun cell => some cell.outputs

def sourceOf (c : Circuit) : WireId → Option CellId := c.ofWires fun wire => some wire.source

def inputsOf (c : Circuit) : CellId → Option (List WireId) :=
  c.ofCells fun cell => some cell.inputs

def targetOf (c : Circuit) : WireId → Option CellId := c.ofWires fun wire => some wire.target

/-- Every row carries the id it lies under. -/
def Keyed (c : Circuit) : Prop := ∀ ⦃id row⦄, c.live.get? id = some row → row.id = id

theorem keyed_of_rows {c : Circuit} (h : ∀ row ∈ c.live.rows, row.2.id = row.1) : c.Keyed :=
  fun _ _ hrow => h _ (Table.get?_eq_some_iff.mp hrow)

/-- Rows lie under their own ids, the cells form one tree below the root, and the ends of wires and
the lists of cells say the same. -/
structure Linked (c : Circuit) : Prop where
  keyed : c.Keyed
  tree : Tree CellId.root c.childrenOf c.parentOf
  sources : Mutual c.outputsOf c.sourceOf
  targets : Mutual c.inputsOf c.targetOf

section Reading

variable {c : Circuit} {id : CellId} {cell : Cell}

theorem childrenOf_eq (h : c.cell? id = some cell) : c.childrenOf id = some cell.children := by
  simp [childrenOf, ofCells, h]

theorem parentOf_eq (h : c.cell? id = some cell) : c.parentOf id = cell.parent := by
  simp [parentOf, ofCells, h]

theorem outputsOf_eq (h : c.cell? id = some cell) : c.outputsOf id = some cell.outputs := by
  simp [outputsOf, ofCells, h]

theorem inputsOf_eq (h : c.cell? id = some cell) : c.inputsOf id = some cell.inputs := by
  simp [inputsOf, ofCells, h]

theorem sourceOf_eq {id : WireId} {wire : Wire} (h : c.wire? id = some wire) :
    c.sourceOf id = some wire.source := by
  simp [sourceOf, ofWires, h]

theorem targetOf_eq {id : WireId} {wire : Wire} (h : c.wire? id = some wire) :
    c.targetOf id = some wire.target := by
  simp [targetOf, ofWires, h]

end Reading

/-- A cell that has some property is live. -/
theorem cell?_of_ofCells {α : Type} {c : Circuit} {f : Cell → Option α} {id : CellId} {a : α}
    (h : c.ofCells f id = some a) : ∃ cell, c.cell? id = some cell := by
  obtain ⟨cell, hcell, -⟩ := Option.bind_eq_some_iff.mp h
  exact ⟨cell, hcell⟩

/-- A wire that has some property is live. -/
theorem wire?_of_ofWires {α : Type} {c : Circuit} {f : Wire → Option α} {id : WireId} {a : α}
    (h : c.ofWires f id = some a) : ∃ wire, c.wire? id = some wire := by
  obtain ⟨wire, hwire, -⟩ := Option.bind_eq_some_iff.mp h
  exact ⟨wire, hwire⟩

/-! ## A moved cell -/

/-- The circuit with a cell moved from one parent below another. -/
def cellMoved (c : Circuit) (id old parent : CellId) : Circuit :=
  ((c.changeCell old fun cell => { cell with children := cell.children.filter (· ≠ id) }).changeCell parent
    fun cell => { cell with children := cell.children ++ [id] }).changeCell id fun cell =>
    { cell with parent := some parent }

/-- Moving a cell takes no cell away. -/
theorem live_cellMoved {c : Circuit} {x : CellId} (h : ∃ cell, c.cell? x = some cell)
    (id old parent : CellId) : ∃ cell, (c.cellMoved id old parent).cell? x = some cell :=
  live_changeCell (live_changeCell (live_changeCell h _ _) _ _) _ _

theorem parentOf_cellMoved {c : Circuit} {id : CellId} (h : ∃ cell, c.cell? id = some cell)
    (old parent : CellId) :
    (c.cellMoved id old parent).parentOf = Function.update c.parentOf id (some parent) := by
  obtain ⟨cell, hcell⟩ := live_changeCell (live_changeCell h old fun cell =>
    { cell with children := cell.children.filter (· ≠ id) }) parent fun cell =>
    { cell with children := cell.children ++ [id] }
  rw [cellMoved, parentOf, ofCells_changeCell _ hcell]
  simp only [parentOf, ofCells_changeCell_same, implies_true]

/-! ## Rows under their own ids -/

namespace Keyed

variable {c : Circuit}

theorem changeCell (h : c.Keyed) (id : CellId) {change : Cell → Cell}
    (hid : ∀ cell, (change cell).id = cell.id) : (c.changeCell id change).Keyed := by
  intro k row hrow
  rw [get?_changeCell] at hrow
  split at hrow
  next hk =>
    obtain ⟨cell, hcell, rfl⟩ := Option.map_eq_some_iff.mp hrow
    have hkey := h (cell?_eq_some_iff.mp hcell)
    rw [hk.1, ← hkey]
    simp [Row.id, hid]
  next => exact h hrow

theorem changeWire (h : c.Keyed) (id : WireId) {change : Wire → Wire}
    (hid : ∀ wire, (change wire).id = wire.id) : (c.changeWire id change).Keyed := by
  intro k row hrow
  rw [get?_changeWire] at hrow
  split at hrow
  next hk =>
    obtain ⟨wire, hwire, rfl⟩ := Option.map_eq_some_iff.mp hrow
    have hkey := h (wire?_eq_some_iff.mp hwire)
    rw [hk.1, ← hkey]
    simp [Row.id, hid]
  next => exact h hrow

theorem mapCells (h : c.Keyed) {change : Cell → Cell} (hid : ∀ cell, (change cell).id = cell.id) :
    (c.mapCells change).Keyed := by
  intro id row hrow
  rw [Circuit.mapCells, Table.get?_map] at hrow
  obtain ⟨old, hold, rfl⟩ := Option.map_eq_some_iff.mp hrow
  have hkey := h hold
  rcases old with cell | wire
  · rw [← hkey]
    simp [Row.id, hid]
  · exact hkey

theorem put (h : c.Keyed) {id : Id} {row : Row} (hid : row.id = id) : (c.put id row).Keyed := by
  intro k other hother
  rw [get?_put] at hother
  split at hother
  next hk =>
    cases hother
    rw [hk, hid]
  next => exact h hother

theorem retired (h : c.Keyed) (removal : Removal) (id : Id) : (c.retired removal id).Keyed := by
  intro k row hrow
  rw [get?_retired] at hrow
  split at hrow
  next => cases hrow
  next => exact h hrow

end Keyed

namespace Linked

variable {c : Circuit}

/-- Links are a matter of the live rows alone. -/
theorem of_live_eq {d : Circuit} (h : c.Linked) (hlive : d.live = c.live) : d.Linked := by
  have hcells : ∀ {α : Type} (f : Cell → Option α), d.ofCells f = c.ofCells f := by
    intro α f
    funext id
    simp [ofCells, cell?, hlive]
  have hwires : ∀ {α : Type} (f : Wire → Option α), d.ofWires f = c.ofWires f := by
    intro α f
    funext id
    simp [ofWires, wire?, hlive]
  refine ⟨?_, ?_, ?_, ?_⟩
  · intro id row hrow
    rw [hlive] at hrow
    exact h.keyed hrow
  · rw [childrenOf, parentOf, hcells, hcells]
    exact h.tree
  · rw [outputsOf, sourceOf, hcells, hwires]
    exact h.sources
  · rw [inputsOf, targetOf, hcells, hwires]
    exact h.targets

/-! ## No link leads nowhere -/

theorem parent_live (h : c.Linked) {id parent : CellId} (hup : c.parentOf id = some parent) :
    ∃ cell, c.cell? parent = some cell := by
  obtain ⟨bs, hbs⟩ := h.tree.links.listed_of_target hup
  exact cell?_of_ofCells hbs

/-- Only the root has no parent. -/
theorem parent_eq_none_iff (h : c.Linked) {id : CellId} {cell : Cell} (hcell : c.cell? id = some cell) :
    cell.parent = none ↔ id = .root := by
  rw [← parentOf_eq hcell]
  exact h.tree.parent_eq_none_iff (childrenOf_eq hcell)

theorem exists_parent (h : c.Linked) {id : CellId} {cell : Cell} (hcell : c.cell? id = some cell)
    (hid : id ≠ .root) : ∃ parent, cell.parent = some parent :=
  Option.ne_none_iff_exists'.mp fun hnone => hid ((h.parent_eq_none_iff hcell).mp hnone)

theorem source_live (h : c.Linked) {id : WireId} {wire : Wire} (hwire : c.wire? id = some wire) :
    ∃ cell, c.cell? wire.source = some cell := by
  obtain ⟨bs, hbs⟩ := h.sources.listed_of_target (sourceOf_eq hwire)
  exact cell?_of_ofCells hbs

theorem target_live (h : c.Linked) {id : WireId} {wire : Wire} (hwire : c.wire? id = some wire) :
    ∃ cell, c.cell? wire.target = some cell := by
  obtain ⟨bs, hbs⟩ := h.targets.listed_of_target (targetOf_eq hwire)
  exact cell?_of_ofCells hbs

/-! ## Changes that touch no link -/

theorem changeCell (h : c.Linked) (id : CellId) {change : Cell → Cell}
    (hsame : ∀ cell, Cell.SameLinks (change cell) cell) : (c.changeCell id change).Linked where
  keyed := h.keyed.changeCell id fun cell => (hsame cell).id
  tree := by
    simp only [childrenOf, parentOf, ofCells_changeCell_same, (hsame _).parent, (hsame _).children,
      implies_true]
    exact h.tree
  sources := by
    simp only [outputsOf, sourceOf, ofWires_changeCell, ofCells_changeCell_same, (hsame _).outputs,
      implies_true]
    exact h.sources
  targets := by
    simp only [inputsOf, targetOf, ofWires_changeCell, ofCells_changeCell_same, (hsame _).inputs,
      implies_true]
    exact h.targets

theorem changeWire (h : c.Linked) (id : WireId) {change : Wire → Wire}
    (hsame : ∀ wire, Wire.SameEnds (change wire) wire) : (c.changeWire id change).Linked where
  keyed := h.keyed.changeWire id fun wire => (hsame wire).id
  tree := by
    simp only [childrenOf, parentOf, ofCells_changeWire]
    exact h.tree
  sources := by
    simp only [outputsOf, sourceOf, ofCells_changeWire, ofWires_changeWire_same, (hsame _).source,
      implies_true]
    exact h.sources
  targets := by
    simp only [inputsOf, targetOf, ofCells_changeWire, ofWires_changeWire_same, (hsame _).target,
      implies_true]
    exact h.targets

theorem mapCells (h : c.Linked) {change : Cell → Cell}
    (hsame : ∀ cell, Cell.SameLinks (change cell) cell) : (c.mapCells change).Linked where
  keyed := h.keyed.mapCells fun cell => (hsame cell).id
  tree := by
    simp only [childrenOf, parentOf, ofCells_mapCells, (hsame _).parent, (hsame _).children,
      implies_true]
    exact h.tree
  sources := by
    simp only [outputsOf, sourceOf, ofWires_mapCells, ofCells_mapCells, (hsame _).outputs,
      implies_true]
    exact h.sources
  targets := by
    simp only [inputsOf, targetOf, ofWires_mapCells, ofCells_mapCells, (hsame _).inputs,
      implies_true]
    exact h.targets

/-! ## New rows -/

/-- A new cell is put below a live one, last among its children. -/
theorem addCell (h : c.Linked) {id parent : CellId} {kind : CellKind} {position : Position}
    {above : Cell} (hnew : c.live.get? id = none) (hparent : c.cell? parent = some above) :
    ((c.put id (.cell (.fresh id (some parent) kind position))).changeCell parent fun cell =>
      { cell with children := cell.children ++ [id] }).Linked := by
  have habsent : c.cell? id = none := cell?_of_absent hnew
  have hne : parent ≠ id := by
    rintro rfl
    rw [habsent] at hparent
    cases hparent
  have hchildren : (c.put id (.cell (.fresh id (some parent) kind position))).childrenOf parent =
      some above.children := by
    rw [childrenOf, ofCells_put_cell, Function.update_of_ne hne]
    exact childrenOf_eq hparent
  refine ⟨?_, ?_, ?_, ?_⟩
  · refine Keyed.changeCell (h.keyed.put ?_) parent fun cell => ?_ <;> rfl
  · rw [childrenOf, ofCells_changeCell_map Cell.children (· ++ [id]) hchildren]
    · simp only [parentOf, ofCells_changeCell_same, ofCells_put_cell, implies_true]
      -- no row was at the id, so the new cell is neither a place nor an item yet
      exact h.tree.graft (by simp [childrenOf, ofCells, habsent])
        (by simp [parentOf, ofCells, habsent]) (childrenOf_eq hparent)
    · exact fun _ => rfl
  · simp only [outputsOf, sourceOf, ofCells_changeCell_same, ofCells_put_cell, ofWires_changeCell,
      ofWires_put_cell _ hnew, implies_true]
    -- no wire starts at the new cell, and an empty list says so
    exact h.sources.add (by simp [outputsOf, ofCells, habsent])
  · simp only [inputsOf, targetOf, ofCells_changeCell_same, ofCells_put_cell, ofWires_changeCell,
      ofWires_put_cell _ hnew, implies_true]
    exact h.targets.add (by simp [inputsOf, ofCells, habsent])

/-- A new wire is put between two live cells, last in the lists of both. -/
theorem addWire (h : c.Linked) (wire : Wire) (hnew : c.live.get? wire.id = none)
    {source target : Cell} (hsource : c.cell? wire.source = some source)
    (htarget : c.cell? wire.target = some target) :
    (((c.put wire.id (.wire wire)).changeCell wire.source fun cell =>
      { cell with outputs := cell.outputs ++ [wire.id] }).changeCell wire.target fun cell =>
      { cell with inputs := cell.inputs ++ [wire.id] }).Linked := by
  have habsent : c.wire? wire.id = none := wire?_of_absent hnew
  have houtputs : (c.put wire.id (.wire wire)).outputsOf wire.source = some source.outputs := by
    rw [outputsOf, ofCells_put_wire _ hnew]
    exact outputsOf_eq hsource
  -- this holds for a loop too: the list of outputs of the same cell is another one
  have hinputs : ((c.put wire.id (.wire wire)).changeCell wire.source fun cell =>
      { cell with outputs := cell.outputs ++ [wire.id] }).inputsOf wire.target =
      some target.inputs := by
    simp only [inputsOf, ofCells_changeCell_same, ofCells_put_wire _ hnew, implies_true]
    exact inputsOf_eq htarget
  refine ⟨?_, ?_, ?_, ?_⟩
  · refine Keyed.changeCell (Keyed.changeCell (h.keyed.put ?_) wire.source fun cell => ?_)
      wire.target fun cell => ?_ <;> rfl
  · simp only [childrenOf, parentOf, ofCells_changeCell_same, ofCells_put_wire _ hnew, implies_true]
    exact h.tree
  · simp only [outputsOf, sourceOf, ofCells_changeCell_same, ofWires_changeCell, ofWires_put_wire,
      implies_true]
    rw [ofCells_changeCell_map Cell.outputs (· ++ [wire.id]) houtputs]
    · rw [ofCells_put_wire _ hnew]
      exact h.sources.attach (by simp [sourceOf, ofWires, habsent]) (outputsOf_eq hsource)
    · exact fun _ => rfl
  · rw [inputsOf, ofCells_changeCell_map Cell.inputs (· ++ [wire.id]) hinputs]
    · simp only [targetOf, ofCells_changeCell_same, ofWires_changeCell, ofWires_put_wire,
        ofCells_put_wire _ hnew, implies_true]
      exact h.targets.attach (by simp [targetOf, ofWires, habsent]) (inputsOf_eq htarget)
    · exact fun _ => rfl

/-! ## Moved links -/

/-- A cell is moved below another parent. -/
theorem moveCell (h : c.Linked) {id old parent : CellId} {above below : Cell}
    (hup : c.parentOf id = some old) (hold : c.cell? old = some above)
    (hparent : c.cell? parent = some below) (hne : old ≠ parent)
    (hnot : ¬ Climbs c.parentOf id parent) : (c.cellMoved id old parent).Linked := by
  -- the list of the new parent is still untouched when the cell is added to it
  have hadded : (c.changeCell old fun cell =>
      { cell with children := cell.children.filter (· ≠ id) }).childrenOf parent =
      some below.children := by
    rw [childrenOf, ofCells_changeCell_map Cell.children (List.filter (· ≠ id)) (childrenOf_eq hold)]
    · rw [Function.update_of_ne (Ne.symm hne)]
      exact childrenOf_eq hparent
    · exact fun _ => rfl
  refine ⟨?_, ?_, ?_, ?_⟩
  · refine Keyed.changeCell (Keyed.changeCell (h.keyed.changeCell old fun cell => ?_) parent
      fun cell => ?_) id fun cell => ?_ <;> rfl
  · rw [parentOf_cellMoved (cell?_of_ofCells hup)]
    simp only [cellMoved, childrenOf, ofCells_changeCell_same, implies_true]
    rw [ofCells_changeCell_map Cell.children (· ++ [id]) hadded]
    · rw [ofCells_changeCell_map Cell.children (List.filter (· ≠ id)) (childrenOf_eq hold)]
      · exact h.tree.move hup (childrenOf_eq hold) (childrenOf_eq hparent) hne hnot
      · exact fun _ => rfl
    · exact fun _ => rfl
  · simp only [cellMoved, outputsOf, sourceOf, ofCells_changeCell_same, ofWires_changeCell, implies_true]
    exact h.sources
  · simp only [cellMoved, inputsOf, targetOf, ofCells_changeCell_same, ofWires_changeCell, implies_true]
    exact h.targets

/-- The source of a wire is moved to another cell. -/
theorem moveSource (h : c.Linked) {id : WireId} {source : CellId} {wire : Wire} {left reached : Cell}
    (hwire : c.wire? id = some wire) (hfrom : c.cell? wire.source = some left)
    (hto : c.cell? source = some reached) (hne : wire.source ≠ source) :
    (((c.changeCell wire.source fun cell =>
      { cell with outputs := cell.outputs.filter (· ≠ id) }).changeCell source fun cell =>
      { cell with outputs := cell.outputs ++ [id] }).changeWire id fun wire =>
      { wire with source := source }).Linked := by
  have hadded : (c.changeCell wire.source fun cell =>
      { cell with outputs := cell.outputs.filter (· ≠ id) }).outputsOf source =
      some reached.outputs := by
    rw [outputsOf, ofCells_changeCell_map Cell.outputs (List.filter (· ≠ id)) (outputsOf_eq hfrom)]
    · rw [Function.update_of_ne (Ne.symm hne)]
      exact outputsOf_eq hto
    · exact fun _ => rfl
  have hsame : ((c.changeCell wire.source fun cell =>
      { cell with outputs := cell.outputs.filter (· ≠ id) }).changeCell source fun cell =>
      { cell with outputs := cell.outputs ++ [id] }).wire? id = some wire := by
    rw [wire?_changeCell, wire?_changeCell, hwire]
  refine ⟨?_, ?_, ?_, ?_⟩
  · refine Keyed.changeWire (Keyed.changeCell (h.keyed.changeCell wire.source fun cell => ?_) source
      fun cell => ?_) id fun wire => ?_ <;> rfl
  · simp only [childrenOf, parentOf, ofCells_changeWire, ofCells_changeCell_same, implies_true]
    exact h.tree
  · rw [sourceOf, ofWires_changeWire _ hsame]
    simp only [outputsOf, ofWires_changeCell, ofCells_changeWire]
    rw [ofCells_changeCell_map Cell.outputs (· ++ [id]) hadded]
    · rw [ofCells_changeCell_map Cell.outputs (List.filter (· ≠ id)) (outputsOf_eq hfrom)]
      · exact h.sources.move (sourceOf_eq hwire) (outputsOf_eq hfrom) (outputsOf_eq hto) hne
      · exact fun _ => rfl
    · exact fun _ => rfl
  · simp only [inputsOf, targetOf, ofCells_changeWire, ofCells_changeCell_same, ofWires_changeCell,
      ofWires_changeWire_same, implies_true]
    exact h.targets

/-- The target of a wire is moved to another cell. -/
theorem moveTarget (h : c.Linked) {id : WireId} {target : CellId} {wire : Wire} {left reached : Cell}
    (hwire : c.wire? id = some wire) (hfrom : c.cell? wire.target = some left)
    (hto : c.cell? target = some reached) (hne : wire.target ≠ target) :
    (((c.changeCell wire.target fun cell =>
      { cell with inputs := cell.inputs.filter (· ≠ id) }).changeCell target fun cell =>
      { cell with inputs := cell.inputs ++ [id] }).changeWire id fun wire =>
      { wire with target := target }).Linked := by
  have hadded : (c.changeCell wire.target fun cell =>
      { cell with inputs := cell.inputs.filter (· ≠ id) }).inputsOf target =
      some reached.inputs := by
    rw [inputsOf, ofCells_changeCell_map Cell.inputs (List.filter (· ≠ id)) (inputsOf_eq hfrom)]
    · rw [Function.update_of_ne (Ne.symm hne)]
      exact inputsOf_eq hto
    · exact fun _ => rfl
  have hsame : ((c.changeCell wire.target fun cell =>
      { cell with inputs := cell.inputs.filter (· ≠ id) }).changeCell target fun cell =>
      { cell with inputs := cell.inputs ++ [id] }).wire? id = some wire := by
    rw [wire?_changeCell, wire?_changeCell, hwire]
  refine ⟨?_, ?_, ?_, ?_⟩
  · refine Keyed.changeWire (Keyed.changeCell (h.keyed.changeCell wire.target fun cell => ?_) target
      fun cell => ?_) id fun wire => ?_ <;> rfl
  · simp only [childrenOf, parentOf, ofCells_changeWire, ofCells_changeCell_same, implies_true]
    exact h.tree
  · simp only [outputsOf, sourceOf, ofCells_changeWire, ofCells_changeCell_same, ofWires_changeCell,
      ofWires_changeWire_same, implies_true]
    exact h.sources
  · rw [targetOf, ofWires_changeWire _ hsame]
    simp only [inputsOf, ofWires_changeCell, ofCells_changeWire]
    rw [ofCells_changeCell_map Cell.inputs (· ++ [id]) hadded]
    · rw [ofCells_changeCell_map Cell.inputs (List.filter (· ≠ id)) (inputsOf_eq hfrom)]
      · exact h.targets.move (targetOf_eq hwire) (inputsOf_eq hfrom) (inputsOf_eq hto) hne
      · exact fun _ => rfl
    · exact fun _ => rfl

/-! ## Removed rows -/

/-- A wire is taken out of the lists of its ends and removed. -/
theorem dropWire (h : c.Linked) (removal : Removal) {id : WireId} {wire : Wire}
    (hwire : c.wire? id = some wire) :
    (((c.changeCell wire.source fun cell =>
      { cell with outputs := cell.outputs.filter (· ≠ id) }).changeCell wire.target fun cell =>
      { cell with inputs := cell.inputs.filter (· ≠ id) }).retired removal id).Linked := by
  obtain ⟨outputs, houtputs⟩ := h.sources.listed_of_target (sourceOf_eq hwire)
  obtain ⟨inputs, hinputs⟩ := h.targets.listed_of_target (targetOf_eq hwire)
  -- on a loop the cell has changed already, but not in its inputs
  have hinputs' : (c.changeCell wire.source fun cell =>
      { cell with outputs := cell.outputs.filter (· ≠ id) }).inputsOf wire.target =
      some inputs := by
    simp only [inputsOf, ofCells_changeCell_same, implies_true]
    exact hinputs
  have hsame : ((c.changeCell wire.source fun cell =>
      { cell with outputs := cell.outputs.filter (· ≠ id) }).changeCell wire.target fun cell =>
      { cell with inputs := cell.inputs.filter (· ≠ id) }).wire? id = some wire := by
    rw [wire?_changeCell, wire?_changeCell, hwire]
  refine ⟨?_, ?_, ?_, ?_⟩
  · refine Keyed.retired (Keyed.changeCell (h.keyed.changeCell wire.source fun cell => ?_) wire.target
      fun cell => ?_) removal id <;> rfl
  · rw [childrenOf, parentOf, ofCells_retired_wire _ _ hsame, ofCells_retired_wire _ _ hsame]
    simp only [ofCells_changeCell_same, implies_true]
    exact h.tree
  · rw [outputsOf, sourceOf, ofCells_retired_wire _ _ hsame, ofWires_retired_wire]
    simp only [ofCells_changeCell_same, ofWires_changeCell, implies_true]
    rw [ofCells_changeCell_map Cell.outputs (List.filter (· ≠ id)) houtputs]
    · exact h.sources.detach (sourceOf_eq hwire) houtputs
    · exact fun _ => rfl
  · rw [inputsOf, targetOf, ofCells_retired_wire _ _ hsame, ofWires_retired_wire,
      ofCells_changeCell_map Cell.inputs (List.filter (· ≠ id)) hinputs']
    · simp only [ofCells_changeCell_same, ofWires_changeCell, implies_true]
      exact h.targets.detach (targetOf_eq hwire) hinputs
    · exact fun _ => rfl

/-- Cells that no wire touches any more are removed: one cell, cut off its parent, and all that lies
below it. -/
theorem dropCells (h : c.Linked) (removal : Removal) {id parent : CellId} {above : Cell}
    {doomed : List CellId} (hup : c.parentOf id = some parent)
    (hparent : c.cell? parent = some above)
    (hdown : ∀ x y, c.parentOf x = some y → y ∈ doomed → x ∈ doomed)
    (hdoomed : ∀ x y, c.parentOf x = some y → x ∈ doomed → x = id ∨ y ∈ doomed)
    (hid : id ∈ doomed) (hroot : CellId.root ∉ doomed)
    (houtputs : ∀ x ∈ doomed, c.outputsOf x = some [])
    (hinputs : ∀ x ∈ doomed, c.inputsOf x = some []) :
    ((c.changeCell parent fun cell =>
      { cell with children := cell.children.filter (· ≠ id) }).dropAll removal doomed).Linked := by
  have hlive : ∀ x ∈ doomed, ∃ cell, (c.changeCell parent fun cell =>
      { cell with children := cell.children.filter (· ≠ id) }).cell? x = some cell := by
    intro x hx
    exact live_changeCell (cell?_of_ofCells (houtputs x hx)) _ _
  -- a wire that points at a doomed cell would be in one of the empty lists
  have hfree : ∀ {listed : CellId → Option (List WireId)} {target : WireId → Option CellId},
      Mutual listed target → (∀ x ∈ doomed, listed x = some []) →
      Mutual (fun x => if x ∈ doomed then none else listed x) target := by
    intro listed target hmutual hempty
    have hdrop := hmutual.drop (· ∈ doomed) (fun _ => False) fun a b hb => by
      simp only [iff_false]
      intro ha
      exact List.not_mem_nil (hmutual.mem_of_target (hempty a ha) hb)
    simpa using hdrop
  refine ⟨?_, ?_, ?_, ?_⟩
  -- the list of the parent was changed before the rows went, and the change kept its id
  · intro k row hrow
    rw [get?_dropAll] at hrow
    split at hrow
    next => cases hrow
    next =>
      refine Keyed.changeCell h.keyed parent (fun cell => ?_) hrow
      rfl
  · rw [childrenOf, parentOf, ofCells_dropAll, ofCells_dropAll,
      ofCells_changeCell_map Cell.children (List.filter (· ≠ id)) (childrenOf_eq hparent)]
    · simp only [ofCells_changeCell_same, implies_true]
      exact h.tree.prune (· ∈ doomed) hup (childrenOf_eq hparent) hdown hdoomed hid hroot
    · exact fun _ => rfl
  · rw [outputsOf, sourceOf, ofCells_dropAll, ofWires_dropAll _ _ hlive]
    simp only [ofCells_changeCell_same, ofWires_changeCell, implies_true]
    exact hfree h.sources houtputs
  · rw [inputsOf, targetOf, ofCells_dropAll, ofWires_dropAll _ _ hlive]
    simp only [ofCells_changeCell_same, ofWires_changeCell, implies_true]
    exact hfree h.targets hinputs

end Linked

end Circuit

end PulseCircuit
