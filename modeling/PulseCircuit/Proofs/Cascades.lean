import PulseCircuit.Proofs.Faults

/-!
# What goes with a removed cell

A removal works off a list of wires and then a list of cells that were gathered before. In a sound circuit
these lists are just the cells below the removed one and the wires that touch any of them, so what is left is
the rest of the circuit, with nothing in its lists that is gone (`Sound.pruned`). The ids go back to the pool
in the order of the lists, and the pool hands out again first what came back last (`Sound.created_take`).
Together this says what deleting a cell leaves behind, for all to see and for later calls
(`Reachable.removal_exact`).
-/

namespace PulseCircuit

/-- The cell with some wires taken out of its lists. -/
def Cell.unlist (cell : Cell) (gone : List WireId) : Cell :=
  { cell with
    inputs := cell.inputs.filter (· ∉ gone)
    outputs := cell.outputs.filter (· ∉ gone) }

theorem Cell.unlist_nil (cell : Cell) : cell.unlist [] = cell := by simp [unlist]

theorem Cell.unlist_unlist (cell : Cell) (gone more : List WireId) :
    (cell.unlist gone).unlist more = cell.unlist (gone ++ more) := by
  simp only [unlist, List.filter_filter, List.mem_append, not_or, Bool.decide_and, Bool.and_comm]

/-- What a removal does with the id of a row. -/
def Removal.book (removal : Removal) (pool : IdPool) (id : Id) : IdPool :=
  match removal with
  | .delete => pool.release id
  | .archive => pool.hold id

theorem IdPool.freeCells_foldl_release (ids : List Id) (pool : IdPool) :
    (ids.foldl release pool).freeCells = pool.freeCells ++ ids.filterMap Id.asCell? := by
  induction ids generalizing pool with
  | nil => simp
  | cons id ids ih =>
    rw [List.foldl_cons, ih]
    cases hid : id.asCell? <;> simp [release, hid]

theorem CellId.asCell?_toId {id : CellId} (h : id.toId.noun = .cell) : id.toId.asCell? = some id :=
  if_pos (Id.noun_eq_cell_iff.mp h)

theorem WireId.asCell?_toId {id : WireId} (h : id.toId.noun = .wire) : id.toId.asCell? = none :=
  if_neg (Int.not_le.mpr (Id.noun_eq_wire_iff.mp h))

namespace Circuit

open Edit Running

variable {c d : Circuit}

/-! ## What goes -/

/-- For a live cell other than the root it can be said what will go. -/
theorem Linked.exists_cascade (h : c.Linked) {id : CellId} {cell : Cell} (hcell : c.cell? id = some cell)
    (hid : id ≠ .root) : ∃ going, c.cascade id = .ok going := by
  obtain ⟨parent, hup⟩ := h.exists_parent hcell hid
  -- the walk down ends, and what it has listed climbs to a live cell, so it is live as well
  obtain ⟨cells, hsub⟩ := h.checked.subtree_ok hcell
  have hlive : ∀ x ∈ cells, ∃ found, c.cell x = .ok found := by
    intro x hx
    obtain ⟨found, hfound⟩ := live_of_climbs ⟨cell, hcell⟩ ((mem_subtree_iff h hsub).mp hx)
    exact ⟨found, cell_ok_iff.mpr hfound⟩
  obtain ⟨rows, hrows⟩ := mapM_ok hlive
  refine ⟨⟨parent, addAllNew [] (rows.flatMap fun cell => cell.inputs ++ cell.outputs), cells⟩, ?_⟩
  rw [cascade, cell_ok_iff.mpr hcell]
  simp only [bind, Except.bind, hup, hsub, wiresAt, hrows]
  rfl

/-- All ids of a cascade in the order in which they go. -/
def Cascade.ids (going : Cascade) : List Id := going.wires.map WireId.toId ++ going.cells.map CellId.toId

section Cascade

variable {id : CellId} {going : Cascade}

theorem live_of_mem_cells (hcascade : c.cascade id = .ok going) {x : CellId} (hx : x ∈ going.cells) :
    ∃ cell, c.cell? x = some cell :=
  live_of_wiresAt (cascade_ok hcascade).2.2 hx

theorem live_of_mem_wires (h : c.Linked) (hcascade : c.cascade id = .ok going) {w : WireId}
    (hw : w ∈ going.wires) : ∃ wire, c.wire? w = some wire := by
  obtain ⟨source, hsource⟩ := h.source_of_mem_wiresAt (cascade_ok hcascade).2.2 hw
  exact wire?_of_ofWires hsource

theorem nodup_cells_of_cascade (h : c.Linked) (hcascade : c.cascade id = .ok going) :
    going.cells.Nodup :=
  h.nodup_subtree (cascade_ok hcascade).2.1

theorem nodup_wires_of_cascade (hcascade : c.cascade id = .ok going) : going.wires.Nodup :=
  nodup_of_wiresAt (cascade_ok hcascade).2.2

theorem mem_cells_of_cascade (h : c.Linked) (hcascade : c.cascade id = .ok going) {x : CellId} :
    x ∈ going.cells ↔ Climbs c.parentOf id x :=
  mem_subtree_iff h (cascade_ok hcascade).2.1

/-- A wire goes if one of its ends does. -/
theorem mem_wires_of_cascade (h : c.Linked) (hcascade : c.cascade id = .ok going) {w : WireId}
    {wire : Wire} (hwire : c.wire? w = some wire) :
    w ∈ going.wires ↔ wire.source ∈ going.cells ∨ wire.target ∈ going.cells := by
  rw [mem_wiresAt_iff (cascade_ok hcascade).2.2]
  constructor
  · rintro ⟨x, hx, cell, hcell, hlisted⟩
    -- a wire is listed at its ends only, so the cell that lists it is one of them
    rcases List.mem_append.mp hlisted with hin | hout
    · have htarget := h.targets.target_of_mem (inputsOf_eq hcell) hin
      rw [targetOf_eq hwire] at htarget
      cases htarget
      exact Or.inr hx
    · have hsource := h.sources.target_of_mem (outputsOf_eq hcell) hout
      rw [sourceOf_eq hwire] at hsource
      cases hsource
      exact Or.inl hx
  · rintro (hx | hx)
    · obtain ⟨cell, hcell⟩ := h.source_live hwire
      exact ⟨_, hx, cell, hcell, List.mem_append_right _
        (h.sources.mem_of_target (outputsOf_eq hcell) (sourceOf_eq hwire))⟩
    · obtain ⟨cell, hcell⟩ := h.target_live hwire
      exact ⟨_, hx, cell, hcell, List.mem_append_left _
        (h.targets.mem_of_target (inputsOf_eq hcell) (targetOf_eq hwire))⟩

end Cascade

/-! ## What is left -/

/-- A wire is listed at its ends only, so it may as well be taken out of the lists of all cells. -/
theorem Linked.cell?_detached (h : c.Linked) {id : WireId} {wire : Wire} (hwire : c.wire? id = some wire)
    (x : CellId) : (c.detached id wire).cell? x = (c.cell? x).map (·.unlist [id]) := by
  rw [detached, cell?_changeCell_eq_map, cell?_changeCell_eq_map]
  cases hcell : c.cell? x with
  | none => rfl
  | some cell =>
    have houtputs : x ≠ wire.source → cell.outputs.filter (· ≠ id) = cell.outputs := fun hne =>
      h.sources.filter_eq_self (outputsOf_eq hcell) (by simpa [sourceOf_eq hwire] using Ne.symm hne)
    have hinputs : x ≠ wire.target → cell.inputs.filter (· ≠ id) = cell.inputs := fun hne =>
      h.targets.filter_eq_self (inputsOf_eq hcell) (by simpa [targetOf_eq hwire] using Ne.symm hne)
    simp only [Option.map_some, Cell.unlist, List.mem_singleton, Option.some.injEq]
    by_cases hs : x = wire.source <;> by_cases ht : x = wire.target
    · rw [if_pos hs, if_pos ht]
    · rw [if_pos hs, if_neg ht, hinputs ht]
    · rw [if_neg hs, if_pos ht, houtputs hs]
    · rw [if_neg hs, if_neg ht, hinputs ht, houtputs hs]

theorem Linked.cell?_dropWire (h : c.Linked) (removal : Removal) (id : WireId) (x : CellId) :
    (c.dropWire removal id).cell? x = (c.cell? x).map (·.unlist [id]) := by
  cases hwire : c.wire? id with
  | some wire =>
    have hsame : (c.detached id wire).wire? id = some wire := by
      rw [detached, wire?_changeCell, wire?_changeCell, hwire]
    rw [dropWire_eq removal hwire, cell?_retired_wire hsame, h.cell?_detached hwire]
  | none =>
    rw [dropWire_of_absent removal hwire]
    cases hcell : c.cell? x with
    | none => rfl
    | some cell =>
      -- a wire that is not there is listed nowhere
      have houtputs : cell.outputs.filter (· ≠ id) = cell.outputs :=
        h.sources.filter_eq_self (outputsOf_eq hcell) (by simp [sourceOf, ofWires, hwire])
      have hinputs : cell.inputs.filter (· ≠ id) = cell.inputs :=
        h.targets.filter_eq_self (inputsOf_eq hcell) (by simp [targetOf, ofWires, hwire])
      simp only [Option.map_some, Cell.unlist, List.mem_singleton]
      rw [houtputs, hinputs]

theorem wire?_dropWire (c : Circuit) (removal : Removal) (id x : WireId) :
    (c.dropWire removal id).wire? x = if x = id then none else c.wire? x := by
  cases hwire : c.wire? id with
  | some wire =>
    rw [dropWire_eq removal hwire, wire?_retired_wire, detached, wire?_changeCell, wire?_changeCell]
  | none =>
    rw [dropWire_of_absent removal hwire]
    by_cases hx : x = id
    · rw [if_pos hx, hx, hwire]
    · rw [if_neg hx]

theorem Sound.cell?_dropWires (h : c.Sound) (removal : Removal) (ids : List WireId) (x : CellId) :
    (c.dropWires removal ids).cell? x = (c.cell? x).map (·.unlist ids) := by
  induction ids generalizing c with
  | nil => simp [Cell.unlist_nil]
  | cons id ids ih =>
    rw [dropWires_cons, ih (h.dropWire removal id), h.linked.cell?_dropWire, Option.map_map]
    simp only [Function.comp_def, Cell.unlist_unlist, List.singleton_append]

theorem wire?_dropWires (c : Circuit) (removal : Removal) (ids : List WireId) (x : WireId) :
    (c.dropWires removal ids).wire? x = if x ∈ ids then none else c.wire? x := by
  induction ids generalizing c with
  | nil => simp
  | cons id ids ih =>
    rw [dropWires_cons, ih, wire?_dropWire]
    by_cases hx : x = id <;> simp [hx]

/-- `d` is `c` without a cell, what lies below it and the wires there. Every other row is still there, in the
old order and as it was, but for what it listed that is gone. -/
structure Pruned (c d : Circuit) (id : CellId) : Prop where
  live_iff : ∀ x, (∃ cell, d.cell x = .ok cell) ↔
    (∃ cell, c.cell x = .ok cell) ∧ ¬ Climbs c.parentOf id x
  cell_kept : ∀ x cell, c.cell x = .ok cell → ¬ Climbs c.parentOf id x →
    d.cell x = .ok { cell with
      children := if c.parentOf id = some x then cell.children.filter (· ≠ id) else cell.children
      inputs := cell.inputs.filter fun w => d.contains w
      outputs := cell.outputs.filter fun w => d.contains w }
  wire_iff : ∀ w wire, d.wire w = .ok wire ↔
    c.wire w = .ok wire ∧ ¬ Climbs c.parentOf id wire.source ∧ ¬ Climbs c.parentOf id wire.target
  order : d.live.keys.Sublist c.live.keys

section Cascade

variable {id : CellId} {going : Cascade}

theorem Sound.cell?_prune (h : c.Sound) (removal : Removal) (hcascade : c.cascade id = .ok going)
    (x : CellId) :
    (c.prune removal id going).cell? x = if x ∈ going.cells then none else
      (c.cell? x).map fun cell => { cell.unlist going.wires with
        children := if c.parentOf id = some x then cell.children.filter (· ≠ id) else cell.children } := by
  rw [Circuit.prune, cell?_dropAll, cell?_changeCell_eq_map, h.cell?_dropWires, Option.map_map,
    (cascade_ok hcascade).1]
  simp only [Option.some.injEq, eq_comm (a := going.parent)]
  congr 2
  funext cell
  simp only [Function.comp_apply]
  split <;> rfl

theorem Sound.wire?_prune (h : c.Sound) (removal : Removal) (hcascade : c.cascade id = .ok going)
    (w : WireId) :
    (c.prune removal id going).wire? w = if w ∈ going.wires then none else c.wire? w := by
  rw [Circuit.prune, wire?_dropAll, wire?_changeCell, wire?_dropWires]
  intro x hx
  refine live_changeCell ?_ _ _
  obtain ⟨cell, hcell⟩ := live_of_mem_cells hcascade hx
  exact ⟨cell.unlist going.wires, by rw [h.cell?_dropWires, hcell]; rfl⟩

theorem keys_retired (c : Circuit) (removal : Removal) (id : Id) :
    (c.retired removal id).live.keys = c.live.keys.filter (· ≠ id) := by
  unfold retired
  cases hrow : c.live.get? id with
  | none =>
    refine (List.filter_eq_self.mpr fun k hk => decide_eq_true ?_).symm
    rintro rfl
    exact Table.get?_eq_none_iff.mp hrow hk
  | some row => cases removal <;> exact Table.keys_erase ..

theorem keys_dropAll (c : Circuit) (removal : Removal) (ids : List CellId) :
    (c.dropAll removal ids).live.keys = c.live.keys.filter (· ∉ ids.map CellId.toId) := by
  induction ids generalizing c with
  | nil => simp [dropAll]
  | cons id ids ih =>
    refine (ih (c.retired removal id.toId)).trans ?_
    rw [keys_retired, List.filter_filter]
    simp only [List.map_cons, List.mem_cons, not_or, Bool.decide_and, ne_eq, Bool.and_comm]

theorem Owned.keys_dropWire (h : c.Owned) (removal : Removal) {id : WireId} (hnoun : id.toId.noun = .wire) :
    (c.dropWire removal id).live.keys = c.live.keys.filter (· ≠ id.toId) := by
  cases hwire : c.wire? id with
  | some wire =>
    rw [dropWire_eq removal hwire, keys_retired, detached, keys_changeCell, keys_changeCell]
  | none =>
    rw [dropWire_of_absent removal hwire]
    refine (List.filter_eq_self.mpr fun k hk => decide_eq_true ?_).symm
    rintro rfl
    obtain ⟨wire, hfound⟩ := h.wire_of_mem_keys hnoun hk
    rw [hwire] at hfound
    cases hfound

theorem Sound.keys_dropWires (h : c.Sound) (removal : Removal) {ids : List WireId}
    (hnoun : ∀ id ∈ ids, id.toId.noun = .wire) :
    (c.dropWires removal ids).live.keys = c.live.keys.filter (· ∉ ids.map WireId.toId) := by
  induction ids generalizing c with
  | nil => simp
  | cons id ids ih =>
    rw [dropWires_cons, ih (h.dropWire removal id) fun x hx => hnoun x (List.mem_cons_of_mem _ hx),
      h.owned.keys_dropWire removal (hnoun id List.mem_cons_self), List.filter_filter]
    simp only [List.map_cons, List.mem_cons, not_or, Bool.decide_and, ne_eq, Bool.and_comm]

/-- Of the rows just those go that are in the cascade, and the others stay in order. -/
theorem Sound.keys_prune (h : c.Sound) (removal : Removal) (hcascade : c.cascade id = .ok going) :
    (c.prune removal id going).live.keys = c.live.keys.filter (· ∉ going.ids) := by
  have hnoun : ∀ w ∈ going.wires, w.toId.noun = .wire := by
    intro w hw
    obtain ⟨wire, hwire⟩ := live_of_mem_wires h.linked hcascade hw
    exact h.owned.noun_eq_wire hwire
  rw [Circuit.prune, keys_dropAll, keys_changeCell, h.keys_dropWires removal hnoun, List.filter_filter]
  simp only [Cascade.ids, List.mem_append, not_or, Bool.decide_and, Bool.and_comm]

theorem Owned.toId_ne_toId (h : c.Owned) {w : WireId} {wire : Wire} (hwire : c.wire? w = some wire)
    {x : CellId} {cell : Cell} (hcell : c.cell? x = some cell) : x.toId ≠ w.toId := by
  intro heq
  have hnoun := h.noun_eq_cell hcell
  rw [heq, h.noun_eq_wire hwire] at hnoun
  cases hnoun

/-- Of the wires of the circuit those are left that do not go. -/
theorem Sound.contains_prune (h : c.Sound) (removal : Removal) (hcascade : c.cascade id = .ok going)
    {w : WireId} {wire : Wire} (hwire : c.wire? w = some wire) :
    (c.prune removal id going).contains w = decide (w ∉ going.wires) := by
  -- no cell has the id of the wire
  have hcells : w.toId ∉ going.cells.map CellId.toId := by
    intro hmem
    obtain ⟨x, hx, heq⟩ := List.mem_map.mp hmem
    obtain ⟨cell, hcell⟩ := live_of_mem_cells hcascade hx
    exact h.owned.toId_ne_toId hwire hcell heq
  have hwires : w.toId ∈ going.wires.map WireId.toId ↔ w ∈ going.wires := by
    simp [List.mem_map, WireId.toId_inj]
  rw [Bool.eq_iff_iff, contains, Table.contains_iff, h.keys_prune removal hcascade, List.mem_filter,
    decide_eq_true_iff, decide_eq_true_iff, Cascade.ids, List.mem_append, hwires]
  simp [hcells, mem_keys_of_wire? hwire]

theorem Sound.filter_contains_prune (h : c.Sound) (removal : Removal) (hcascade : c.cascade id = .ok going)
    {ws : List WireId} (hlive : ∀ w ∈ ws, ∃ wire, c.wire? w = some wire) :
    ws.filter (fun w => (c.prune removal id going).contains w.toId) = ws.filter (· ∉ going.wires) := by
  refine List.filter_congr fun w hw => ?_
  obtain ⟨wire, hwire⟩ := hlive w hw
  exact h.contains_prune removal hcascade hwire

theorem Sound.pruned (h : c.Sound) (removal : Removal) (hcascade : c.cascade id = .ok going) :
    Pruned c (c.prune removal id going) id where
  live_iff := by
    intro x
    simp only [cell_ok_iff, h.cell?_prune removal hcascade, ← mem_cells_of_cascade h.linked hcascade]
    by_cases hx : x ∈ going.cells <;> simp [hx]
  cell_kept := by
    intro x cell hcell hstays
    rw [cell_ok_iff] at hcell
    rw [← mem_cells_of_cascade h.linked hcascade] at hstays
    rw [cell_ok_iff, h.cell?_prune removal hcascade, if_neg hstays, hcell, Option.map_some]
    have hinputs : ∀ w ∈ cell.inputs, ∃ wire, c.wire? w = some wire := fun w hw =>
      wire?_of_ofWires (h.linked.targets.target_of_mem (inputsOf_eq hcell) hw)
    have houtputs : ∀ w ∈ cell.outputs, ∃ wire, c.wire? w = some wire := fun w hw =>
      wire?_of_ofWires (h.linked.sources.target_of_mem (outputsOf_eq hcell) hw)
    rw [h.filter_contains_prune removal hcascade hinputs,
      h.filter_contains_prune removal hcascade houtputs]
    rfl
  wire_iff := by
    intro w wire
    rw [wire_ok_iff, wire_ok_iff, h.wire?_prune removal hcascade]
    by_cases hwire : c.wire? w = some wire
    · simp only [← mem_cells_of_cascade h.linked hcascade, ← not_or,
        ← mem_wires_of_cascade h.linked hcascade hwire, hwire]
      simp
    · simp only [hwire, false_and, iff_false]
      split
      · simp
      · exact hwire
  order := by
    rw [h.keys_prune removal hcascade]
    exact List.filter_sublist

end Cascade

/-! ## The ids of what goes -/

theorem ids_retired (removal : Removal) {id : Id} (hid : id ∈ c.live.keys) :
    (c.retired removal id).ids = removal.book c.ids id := by
  obtain ⟨row, hrow⟩ := Option.isSome_iff_exists.mp (Table.mem_keys_iff.mp hid)
  unfold retired
  rw [hrow]
  cases removal <;> rfl

theorem ids_dropWire (removal : Removal) {id : WireId} {wire : Wire} (hwire : c.wire? id = some wire) :
    (c.dropWire removal id).ids = removal.book c.ids id := by
  have hkey : id.toId ∈ (c.detached id wire).live.keys := by
    rw [detached, keys_changeCell, keys_changeCell]
    exact mem_keys_of_wire? hwire
  rw [dropWire_eq removal hwire, ids_retired removal hkey, detached, ids_changeCell, ids_changeCell]

/-- The ids of different live wires go one after the other. -/
theorem ids_dropWires (removal : Removal) {ids : List WireId}
    (hlive : ∀ id ∈ ids, ∃ wire, c.wire? id = some wire) (hnodup : ids.Nodup) :
    (c.dropWires removal ids).ids = (ids.map WireId.toId).foldl removal.book c.ids := by
  induction ids generalizing c with
  | nil => rfl
  | cons id ids ih =>
    obtain ⟨hnot, hrest⟩ := List.nodup_cons.mp hnodup
    obtain ⟨wire, hwire⟩ := hlive id List.mem_cons_self
    have hlater : ∀ x ∈ ids, ∃ wire, (c.dropWire removal id).wire? x = some wire := by
      intro x hx
      have hne : x ≠ id := fun heq => hnot (heq ▸ hx)
      rw [wire?_dropWire, if_neg hne]
      exact hlive x (List.mem_cons_of_mem _ hx)
    rw [dropWires_cons, ih hlater hrest, ids_dropWire removal hwire]
    rfl

/-- The ids of different live cells go one after the other. -/
theorem ids_dropAll (removal : Removal) {ids : List CellId}
    (hlive : ∀ id ∈ ids, ∃ cell, c.cell? id = some cell) (hnodup : ids.Nodup) :
    (c.dropAll removal ids).ids = (ids.map CellId.toId).foldl removal.book c.ids := by
  induction ids generalizing c with
  | nil => rfl
  | cons id ids ih =>
    obtain ⟨hnot, hrest⟩ := List.nodup_cons.mp hnodup
    obtain ⟨cell, hcell⟩ := hlive id List.mem_cons_self
    have hkey := mem_keys_of_cell? hcell
    have hlater : ∀ x ∈ ids, ∃ cell, (c.retired removal id).cell? x = some cell := by
      intro x hx
      have hne : x ≠ id := fun heq => hnot (heq ▸ hx)
      obtain ⟨other, hother⟩ := hlive x (List.mem_cons_of_mem _ hx)
      refine ⟨other, cell?_eq_some_iff.mpr ?_⟩
      rw [get?_retired, if_neg (mt CellId.toId_inj.mp hne)]
      exact cell?_eq_some_iff.mp hother
    have hrun := ih hlater hrest
    rw [ids_retired removal hkey] at hrun
    exact hrun

theorem Sound.ids_prune (h : c.Sound) (removal : Removal) {id : CellId} {going : Cascade}
    (hcascade : c.cascade id = .ok going) :
    (c.prune removal id going).ids = going.ids.foldl removal.book c.ids := by
  rw [Circuit.prune, ids_dropAll removal _ (nodup_cells_of_cascade h.linked hcascade), ids_changeCell,
    ids_dropWires removal (fun w hw => live_of_mem_wires h.linked hcascade hw)
      (nodup_wires_of_cascade hcascade), Cascade.ids, List.foldl_append]
  -- the wires have gone without taking a cell along
  intro x hx
  obtain ⟨cell, hcell⟩ := live_of_mem_cells hcascade hx
  exact live_changeCell ⟨_, (h.cell?_dropWires removal _ x).trans (by rw [hcell]; rfl)⟩ _ _

/-! ## The ids of what comes -/

/-- A call for a new cell. -/
structure NewCell where
  validate : Bool
  parent : CellId
  kind : CellKind
  position : Position

/-- The ids that calls for new cells return, one call after the other. A call that fails returns none. -/
def created : List NewCell → Circuit → List CellId
  | [], _ => []
  | call :: calls, c =>
    match createCell call.validate call.parent call.kind call.position c with
    | .ok id d => id :: created calls d
    | .error _ d => created calls d

/-- A new cell below a live one gets the id the pool hands out. -/
theorem Sound.createCell_ok (h : c.Sound) (call : NewCell) {above : Cell}
    (habove : c.cell? call.parent = some above) :
    ∃ d, Circuit.createCell call.validate call.parent call.kind call.position c =
        .ok c.ids.takeCell.1 d ∧ d.Sound ∧ d.ids = c.ids.takeCell.2 ∧
      ∀ x, (∃ cell, c.cell? x = some cell) → ∃ cell, d.cell? x = some cell := by
  have hsound := h.createCell call.validate call.parent call.kind call.position
  have hrun := hsound.run_of_validated (createCell_run habove ..)
  rw [final_of_ok hrun] at hsound
  refine ⟨_, hrun, hsound, ids_changeCell .., fun x hx => live_changeCell ?_ _ _⟩
  rw [cell?_put_cell]
  split
  · exact ⟨_, rfl⟩
  · exact hx

/-- Calls for cells below live ones all succeed. -/
theorem Sound.length_created (h : c.Sound) {calls : List NewCell}
    (hlive : ∀ call ∈ calls, ∃ above, c.cell? call.parent = some above) :
    (created calls c).length = calls.length := by
  induction calls generalizing c with
  | nil => rfl
  | cons call calls ih =>
    obtain ⟨above, habove⟩ := hlive call List.mem_cons_self
    obtain ⟨d, hrun, hd, -, hkept⟩ := h.createCell_ok call habove
    rw [created, hrun, List.length_cons, List.length_cons,
      ih hd fun later hlater => hkept _ (hlive later (List.mem_cons_of_mem _ hlater))]

/-- New cells get the free ids first, from the one given back last to the one given back first. -/
theorem Sound.created_take (h : c.Sound) (calls : List NewCell) :
    (created calls c).take c.ids.freeCells.length =
      c.ids.freeCells.reverse.take (created calls c).length := by
  induction calls generalizing c with
  | nil => simp [created]
  | cons call calls ih =>
    cases hcell : c.cell call.parent with
    | error fault =>
      -- a call that fails takes no id from the pool
      have hrun : Circuit.createCell call.validate call.parent call.kind call.position c =
          .error fault c := bind_of_error (ask_of_error hcell) _
      rw [created, hrun]
      exact ih h
    | ok above =>
      obtain ⟨d, hrun, hd, hids, -⟩ := h.createCell_ok call (cell_ok_iff.mp hcell)
      have hrest := ih hd
      rw [created, hrun]
      rcases c.ids.takeCell_cases with ⟨ids, id, hfree, htake⟩ | ⟨hfree, -⟩
      · rw [hids, htake] at hrest
        simp only [hfree, htake, List.length_append, List.length_cons, List.length_nil,
          List.reverse_append, List.reverse_cons, List.reverse_nil, List.nil_append,
          List.singleton_append, Nat.zero_add, List.take_succ_cons, hrest]
      · simp [hfree]

/-- The ids in `order` are what new cells get first: all of them come, one after the other, before any
other does. -/
def HandsOutFirst (c : Circuit) (order : List CellId) : Prop :=
  ∀ calls, (created calls c).take order.length = order.take (created calls c).length

/-- Of the ids of a cascade those of the cells are free for new cells afterwards. -/
theorem Sound.freeCells_prune (h : c.Sound) {id : CellId} {going : Cascade}
    (hcascade : c.cascade id = .ok going) :
    (c.prune .delete id going).ids.freeCells = c.ids.freeCells ++ going.cells := by
  have hnone : (going.wires.map WireId.toId).filterMap Id.asCell? = [] := by
    simp only [List.filterMap_eq_nil_iff, List.forall_mem_map]
    intro w hw
    obtain ⟨wire, hwire⟩ := live_of_mem_wires h.linked hcascade hw
    exact WireId.asCell?_toId (h.owned.noun_eq_wire hwire)
  have hall : (going.cells.map CellId.toId).filterMap Id.asCell? = going.cells := by
    rw [List.filterMap_map]
    refine (List.filterMap_congr fun x hx => ?_).trans List.filterMap_some
    obtain ⟨cell, hcell⟩ := live_of_mem_cells hcascade hx
    exact CellId.asCell?_toId (h.owned.noun_eq_cell hcell)
  rw [h.ids_prune .delete hcascade]
  refine (IdPool.freeCells_foldl_release going.ids c.ids).trans ?_
  rw [Cascade.ids, List.filterMap_append, hnone, hall, List.nil_append]

theorem Sound.handsOutFirst (h : c.Sound) {free order : List CellId}
    (hfree : c.ids.freeCells = free ++ order.reverse) : c.HandsOutFirst order := by
  intro calls
  -- `order` is where the reversed free list starts, so the first ids to come are cut off on both sides
  have htake := congrArg (List.take order.length) (h.created_take calls)
  rw [List.take_take, List.take_take, hfree, List.reverse_append, List.reverse_reverse,
    Nat.min_eq_left (by simp), Nat.min_comm, ← List.take_take] at htake
  simpa using htake

/-- Deleting or archiving a live cell other than the root succeeds. Only the cells below it and the wires that
touch one of them go, and nothing else changes but the lists they were in. After a deletion new cells get the
ids of the deleted ones first, from the cell itself down. -/
theorem Reachable.removal_exact (h : Reachable c) {id : CellId} {cell : Cell}
    (hcell : c.cell id = .ok cell) (hid : id ≠ .root) (validate : Bool) :
    (∃ d, archiveCell validate id c = .ok () d ∧ Pruned c d id) ∧
    ∃ d order, deleteCell validate id c = .ok () d ∧ Pruned c d id ∧
      order.head? = some id ∧ order.Nodup ∧ (∀ x, x ∈ order ↔ Climbs c.parentOf id x) ∧
      order.Pairwise (fun x y => ¬ Climbs c.parentOf y x) ∧
      d.HandsOutFirst order ∧
      ∀ calls, (∀ call ∈ calls, ∃ above, d.cell call.parent = .ok above) →
        (created calls d).length = calls.length := by
  have hsound := h.sound
  obtain ⟨going, hcascade⟩ := hsound.linked.exists_cascade (cell_ok_iff.mp hcell) hid
  have hsub := (cascade_ok hcascade).2.1
  refine ⟨⟨_, hsound.removeCell_run validate .archive hcascade, hsound.pruned .archive hcascade⟩,
    _, going.cells.reverse, hsound.removeCell_run validate .delete hcascade,
    hsound.pruned .delete hcascade, ?_, ?_, ?_, ?_, ?_, ?_⟩
  · rw [List.head?_reverse, getLast?_subtree hsub]
  · exact List.nodup_reverse.mpr (nodup_cells_of_cascade hsound.linked hcascade)
  · intro x
    rw [List.mem_reverse, mem_cells_of_cascade hsound.linked hcascade]
  · exact List.pairwise_reverse.mpr (hsound.linked.pairwise_subtree hsub)
  · have hfree := hsound.freeCells_prune hcascade
    rw [← going.cells.reverse_reverse] at hfree
    exact (hsound.prune .delete hcascade).handsOutFirst hfree
  · intro calls hlive
    exact (hsound.prune .delete hcascade).length_created fun call hcall =>
      (hlive call hcall).imp fun above habove => cell_ok_iff.mp habove

/-- The first cell has cells below it, a wire to itself, one to a cell below it, and one from outside ends there. -/
def nested : Circuit :=
  initial.performAll true
    [.createCell .root .relay .origin, .createCell .root .relay .origin, .createCell ⟨1⟩ .relay .origin,
      .createCell ⟨3⟩ .relay .origin, .createWire ⟨1⟩ ⟨1⟩ .any .now, .createWire ⟨1⟩ ⟨4⟩ .any .now,
      .createWire ⟨2⟩ ⟨3⟩ .any .now, .createWire ⟨2⟩ .root .any .now]

theorem removal_exact_of_nested :
    (∃ d, archiveCell true ⟨1⟩ nested = .ok () d ∧ Pruned nested d ⟨1⟩) ∧
    ∃ d order, deleteCell true ⟨1⟩ nested = .ok () d ∧ Pruned nested d ⟨1⟩ ∧
      order.head? = some ⟨1⟩ ∧ order.Nodup ∧ (∀ x, x ∈ order ↔ Climbs nested.parentOf ⟨1⟩ x) ∧
      order.Pairwise (fun x y => ¬ Climbs nested.parentOf y x) ∧
      d.HandsOutFirst order ∧
      ∀ calls, (∀ call ∈ calls, ∃ above, d.cell call.parent = .ok above) →
        (created calls d).length = calls.length := by
  have hreachable : Reachable nested := .performAll .initial true _
  obtain ⟨cell, hcell⟩ : ∃ cell, nested.cell ⟨1⟩ = .ok cell := ⟨_, rfl⟩
  exact hreachable.removal_exact hcell (by decide) true

end Circuit

end PulseCircuit
