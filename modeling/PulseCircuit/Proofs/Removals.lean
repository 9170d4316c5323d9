import PulseCircuit.Circuit.Removal
import PulseCircuit.Proofs.Collecting
import PulseCircuit.Proofs.Edits

/-!
# What removals leave behind

Removing a cell removes its wires one by one, and then all cells below it at once. No look-up fails on
the way, because each removed wire leaves a sound circuit (`removeWires_run`), and once the wires are
gone no link leads from what stays to what goes (`removeCell_of_ok`).
-/

namespace PulseCircuit

namespace Circuit

open Edit Running

variable {c d : Circuit}

/-! ## Wires -/

/-- The circuit with a wire taken out of the lists of its ends. -/
def detached (c : Circuit) (id : WireId) (wire : Wire) : Circuit :=
  (c.changeCell wire.source fun cell =>
    { cell with outputs := cell.outputs.filter (· ≠ id) }).changeCell wire.target fun cell =>
    { cell with inputs := cell.inputs.filter (· ≠ id) }

theorem detachWire_run (h : c.Linked) {id : WireId} {wire : Wire} (hwire : c.wire? id = some wire) :
    detachWire id c = .ok (wire.source, wire.target) (c.detached id wire) := by
  obtain ⟨left, hleft⟩ := h.source_live hwire
  -- the target is live also when the wire is a loop and the cell has just changed
  obtain ⟨reached, hreached⟩ := live_changeCell (h.target_live hwire) wire.source fun cell =>
    { cell with outputs := cell.outputs.filter (· ≠ id) }
  rw [detachWire, bind_of_ok (ask_wire hwire), bind_of_ok (onCell_run hleft _),
    bind_of_ok (onCell_run hreached _)]
  rfl

/-- `d` is what is left of `c` when some wires are gone: the same tree, and the other wires. -/
structure Severed (c d : Circuit) (gone : List WireId) : Prop where
  children : d.childrenOf = c.childrenOf
  parent : d.parentOf = c.parentOf
  source : ∀ id, d.sourceOf id = if id ∈ gone then none else c.sourceOf id
  target : ∀ id, d.targetOf id = if id ∈ gone then none else c.targetOf id

theorem severed_nil (c : Circuit) : Severed c c [] := ⟨rfl, rfl, by simp, by simp⟩

theorem severed_retired (removal : Removal) {id : WireId} {wire : Wire}
    (hwire : c.wire? id = some wire) :
    Severed c ((c.detached id wire).retired removal id) [id] := by
  -- the wire is still there when its row is removed, only unlisted
  have hsame : (c.detached id wire).wire? id = some wire := by
    rw [detached, wire?_changeCell, wire?_changeCell, hwire]
  refine ⟨?_, ?_, fun x => ?_, fun x => ?_⟩
  · rw [childrenOf, ofCells_retired_wire _ _ hsame, detached]
    simp only [ofCells_changeCell_same, implies_true]
    rfl
  · rw [parentOf, ofCells_retired_wire _ _ hsame, detached]
    simp only [ofCells_changeCell_same, implies_true]
    rfl
  · rw [sourceOf, ofWires_retired_wire, detached, ofWires_changeCell, ofWires_changeCell,
      Function.update_apply]
    simp only [List.mem_singleton]
    rfl
  · rw [targetOf, ofWires_retired_wire, detached, ofWires_changeCell, ofWires_changeCell,
      Function.update_apply]
    simp only [List.mem_singleton]
    rfl

theorem Severed.cons {e : Circuit} {id : WireId} {ids : List WireId} (h : Severed c d [id])
    (hrest : Severed d e ids) : Severed c e (id :: ids) where
  children := hrest.children.trans h.children
  parent := hrest.parent.trans h.parent
  source := by
    intro x
    rw [hrest.source, h.source]
    by_cases hx : x ∈ ids <;> simp [hx]
  target := by
    intro x
    rw [hrest.target, h.target]
    by_cases hx : x ∈ ids <;> simp [hx]

theorem Sound.retiredWire (h : c.Sound) (removal : Removal) {id : WireId} {wire : Wire}
    (hwire : c.wire? id = some wire) : ((c.detached id wire).retired removal id).Sound :=
  ⟨h.linked.dropWire removal hwire,
    ((h.owned.changeCell _ _).changeCell _ _).retired removal id⟩

/-- The circuit without a wire, which is no longer listed at its ends either. -/
def dropWire (c : Circuit) (removal : Removal) (id : WireId) : Circuit :=
  match c.wire? id with
  | some wire => (c.detached id wire).retired removal id
  | none => c

theorem dropWire_eq (removal : Removal) {id : WireId} {wire : Wire} (hwire : c.wire? id = some wire) :
    c.dropWire removal id = (c.detached id wire).retired removal id := by
  rw [dropWire, hwire]

theorem dropWire_of_absent (removal : Removal) {id : WireId} (hwire : c.wire? id = none) :
    c.dropWire removal id = c := by
  rw [dropWire, hwire]

theorem Sound.dropWire (h : c.Sound) (removal : Removal) (id : WireId) :
    (c.dropWire removal id).Sound := by
  cases hwire : c.wire? id with
  | none =>
    rw [dropWire_of_absent removal hwire]
    exact h
  | some wire =>
    rw [dropWire_eq removal hwire]
    exact h.retiredWire removal hwire

theorem severed_dropWire (c : Circuit) (removal : Removal) (id : WireId) :
    Severed c (c.dropWire removal id) [id] := by
  cases hwire : c.wire? id with
  | none =>
    -- a wire that is not there has no ends
    have hsource : c.sourceOf id = none := by simp [sourceOf, ofWires, hwire]
    have htarget : c.targetOf id = none := by simp [targetOf, ofWires, hwire]
    rw [dropWire_of_absent removal hwire]
    refine ⟨rfl, rfl, fun x => ?_, fun x => ?_⟩
    · by_cases hx : x = id <;> simp [hx, hsource]
    · by_cases hx : x = id <;> simp [hx, htarget]
  | some wire =>
    rw [dropWire_eq removal hwire]
    exact severed_retired removal hwire

/-- The circuit without some wires, which are dropped one after the other. -/
def dropWires (c : Circuit) (removal : Removal) (ids : List WireId) : Circuit :=
  ids.foldl (fun c id => c.dropWire removal id) c

@[simp] theorem dropWires_nil (c : Circuit) (removal : Removal) : c.dropWires removal [] = c := rfl

@[simp] theorem dropWires_cons (c : Circuit) (removal : Removal) (id : WireId) (ids : List WireId) :
    c.dropWires removal (id :: ids) = (c.dropWire removal id).dropWires removal ids := rfl

theorem Sound.dropWires (h : c.Sound) (removal : Removal) (ids : List WireId) :
    (c.dropWires removal ids).Sound := by
  induction ids generalizing c with
  | nil => exact h
  | cons id ids ih => exact ih (h.dropWire removal id)

theorem severed_dropWires (c : Circuit) (removal : Removal) (ids : List WireId) :
    Severed c (c.dropWires removal ids) ids := by
  induction ids generalizing c with
  | nil => exact severed_nil c
  | cons id ids ih => exact (severed_dropWire c removal id).cons (ih (c.dropWire removal id))

/-- Live wires are removed one after the other without a fault. -/
theorem removeWires_run (h : c.Sound) (removal : Removal) (doomed : List CellId) {ids : List WireId}
    (hlive : ∀ id ∈ ids, ∃ source, c.sourceOf id = some source) (hnodup : ids.Nodup)
    (touched : List Id) :
    ∃ touched', removeWires removal doomed ids touched c = .ok touched' (c.dropWires removal ids) := by
  -- each removal leaves a sound circuit, on which the next one is run
  induction ids generalizing c touched with
  | nil => exact ⟨touched, rfl⟩
  | cons id ids ih =>
    obtain ⟨hnot, hrest⟩ := List.nodup_cons.mp hnodup
    obtain ⟨source, hsource⟩ := hlive id List.mem_cons_self
    obtain ⟨wire, hwire⟩ := wire?_of_ofWires hsource
    -- the wires are all different, so the later ones are still there
    have hlater : ∀ x ∈ ids, ∃ source, (c.dropWire removal id).sourceOf x = some source := by
      intro x hx
      have hne : x ≠ id := fun heq => hnot (heq ▸ hx)
      rw [(severed_dropWire c removal id).source, if_neg (by simpa using hne)]
      exact hlive x (List.mem_cons_of_mem _ hx)
    obtain ⟨touched', hrun⟩ := ih (h.dropWire removal id) hlater hrest
      (addAllNew touched (([wire.source, wire.target].filter fun cell =>
        !doomed.contains cell).map CellId.toId))
    refine ⟨touched', ?_⟩
    rw [dropWire_eq removal hwire] at hrun
    rw [removeWires, bind_of_ok (detachWire_run h.linked hwire), dropWires_cons,
      dropWire_eq removal hwire]
    exact hrun

/-- A wire that is not there cannot be removed, and all stays as it is. -/
theorem removeWire_of_error (validate : Bool) (removal : Removal) {id : WireId} {fault : Fault}
    (hask : c.wire id = .error fault) : removeWire validate removal id c = .error fault c := by
  rw [removeWire, detachWire, bind_assoc, bind_of_error (ask_of_error hask)]

theorem removeWire_of_live (h : c.Linked) (validate : Bool) (removal : Removal) {id : WireId} {wire : Wire}
    (hwire : c.wire? id = some wire) :
    removeWire validate removal id c =
      validated validate [wire.source.toId, wire.target.toId] (c.dropWire removal id) := by
  rw [dropWire_eq removal hwire]
  exact bind_of_ok (detachWire_run h hwire) _

theorem Sound.removeWire (h : c.Sound) (validate : Bool) (removal : Removal) (id : WireId) :
    ((Circuit.removeWire validate removal id).final c).Sound := by
  cases hask : c.wire id with
  | error fault =>
    rw [final_of_error (removeWire_of_error validate removal hask)]
    exact h
  | ok wire =>
    rw [final_of_run (removeWire_of_live h.linked validate removal (wire_ok_iff.mp hask)),
      final_validated]
    exact h.dropWire removal id

/-! ## Cells -/

/-- The wires at some cells are gathered from their lists, and each is taken once. -/
theorem wiresAt_ok {ids : List CellId} {wires : List WireId} (h : c.wiresAt ids = .ok wires) :
    ∃ cells, ids.mapM c.cell = .ok cells ∧
      wires = addAllNew [] (cells.flatMap fun cell => cell.inputs ++ cell.outputs) := by
  rw [wiresAt] at h
  cases hcells : ids.mapM c.cell with
  | error fault =>
    rw [hcells] at h
    cases h
  | ok cells =>
    rw [hcells] at h
    cases h
    exact ⟨cells, rfl, rfl⟩

/-- The wires at some cells are all there is in the lists of these cells. -/
theorem mem_wiresAt_iff {ids : List CellId} {wires : List WireId} (h : c.wiresAt ids = .ok wires)
    {w : WireId} :
    w ∈ wires ↔ ∃ id ∈ ids, ∃ cell, c.cell? id = some cell ∧ w ∈ cell.inputs ++ cell.outputs := by
  obtain ⟨cells, hcells, rfl⟩ := wiresAt_ok h
  obtain ⟨hleft, hright⟩ := mapM_members hcells
  rw [mem_addAllNew, List.mem_flatMap]
  constructor
  · rintro (hnil | ⟨cell, hcell, hw⟩)
    · cases hnil
    · obtain ⟨id, hid, hok⟩ := hright cell hcell
      exact ⟨id, hid, cell, cell_ok_iff.mp hok, hw⟩
  · rintro ⟨id, hid, cell, hcell, hw⟩
    obtain ⟨other, hother, hok⟩ := hleft id hid
    rw [cell_ok_iff.mpr hcell] at hok
    cases hok
    exact Or.inr ⟨cell, hother, hw⟩

theorem nodup_of_wiresAt {ids : List CellId} {wires : List WireId} (h : c.wiresAt ids = .ok wires) :
    wires.Nodup := by
  obtain ⟨cells, -, rfl⟩ := wiresAt_ok h
  exact nodup_addAllNew List.nodup_nil _

theorem live_of_wiresAt {ids : List CellId} {wires : List WireId} (h : c.wiresAt ids = .ok wires)
    {id : CellId} (hid : id ∈ ids) : ∃ cell, c.cell? id = some cell := by
  obtain ⟨cells, hcells, -⟩ := wiresAt_ok h
  obtain ⟨cell, -, hok⟩ := (mapM_members hcells).1 id hid
  exact ⟨cell, cell_ok_iff.mp hok⟩

/-- Wires that are listed at live cells are live. -/
theorem Linked.source_of_mem_wiresAt (h : c.Linked) {ids : List CellId} {wires : List WireId}
    (hwires : c.wiresAt ids = .ok wires) {w : WireId} (hw : w ∈ wires) :
    ∃ source, c.sourceOf w = some source := by
  obtain ⟨id, -, cell, hcell, hlisted⟩ := (mem_wiresAt_iff hwires).mp hw
  rcases List.mem_append.mp hlisted with hin | hout
  · obtain ⟨wire, hwire⟩ := wire?_of_ofWires (h.targets.target_of_mem (inputsOf_eq hcell) hin)
    exact ⟨wire.source, sourceOf_eq hwire⟩
  · exact ⟨id, h.sources.target_of_mem (outputsOf_eq hcell) hout⟩

/-- Once the wires at some cells are gone, these cells list none. -/
theorem Severed.bare (hc : c.Linked) (hd : d.Linked) {ids : List CellId} {wires : List WireId}
    (hwires : c.wiresAt ids = .ok wires) (h : Severed c d wires) {id : CellId} (hid : id ∈ ids) :
    d.outputsOf id = some [] ∧ d.inputsOf id = some [] := by
  obtain ⟨cell, hcell⟩ := live_of_wiresAt hwires hid
  -- with the tree the cells are kept, so each has lists before and after
  obtain ⟨now, hnow⟩ : ∃ now, d.cell? id = some now := by
    have hchildren := childrenOf_eq hcell
    rw [← h.children] at hchildren
    exact cell?_of_ofCells hchildren
  have hlisted : ∀ w ∈ cell.inputs ++ cell.outputs, w ∈ wires := fun w hw =>
    (mem_wiresAt_iff hwires).mpr ⟨id, hid, cell, hcell, hw⟩
  constructor
  · rw [outputsOf_eq hnow, Option.some.injEq]
    exact hc.sources.eq_nil_of_gone hd.sources h.source (outputsOf_eq hcell)
      (fun w hw => hlisted w (List.mem_append_right _ hw)) (outputsOf_eq hnow)
  · rw [inputsOf_eq hnow, Option.some.injEq]
    exact hc.targets.eq_nil_of_gone hd.targets h.target (inputsOf_eq hcell)
      (fun w hw => hlisted w (List.mem_append_left _ hw)) (inputsOf_eq hnow)

/-- A sound circuit stays sound without a cell and what lies below it, once their wires are gone. -/
theorem Sound.dropSubtree (hc : c.Sound) (hd : d.Sound) {id parent : CellId}
    (hup : c.parentOf id = some parent) {doomed : List CellId} (hsub : c.subtree id = .ok doomed)
    {wires : List WireId} (hwires : c.wiresAt doomed = .ok wires) (h : Severed c d wires)
    (removal : Removal) :
    ((d.changeCell parent fun cell =>
      { cell with children := cell.children.filter (· ≠ id) }).dropAll removal doomed).Sound := by
  -- the subtree was taken before the wires went, but they are no part of the tree
  have hmem : ∀ x, x ∈ doomed ↔ Climbs d.parentOf id x := by
    intro x
    rw [mem_subtree_iff hc.linked hsub, h.parent]
  have hup : d.parentOf id = some parent := h.parent ▸ hup
  obtain ⟨above, habove⟩ := hd.linked.parent_live hup
  refine ⟨hd.linked.dropCells removal hup habove ?_ ?_ ?_ ?_ ?_ ?_,
    (hd.owned.changeCell _ _).dropAll removal doomed⟩
  · intro x y hxy hy
    exact (hmem x).mpr (((hmem y).mp hy).step hxy)
  · intro x y hxy hx
    rcases Relation.ReflTransGen.cases_head ((hmem x).mp hx) with heq | ⟨z, hxz, hz⟩
    · exact Or.inl heq
    · rw [hxy] at hxz
      cases hxz
      exact Or.inr ((hmem y).mpr hz)
  · exact (hmem id).mpr Relation.ReflTransGen.refl
  · -- the root has no parent, so it climbs to nothing but itself
    intro hroot
    rcases Relation.ReflTransGen.cases_head ((hmem _).mp hroot) with heq | ⟨z, hz, -⟩
    · rw [← heq, hd.linked.tree.parent_top] at hup
      cases hup
    · rw [hd.linked.tree.parent_top] at hz
      cases hz
  · exact fun x hx => (h.bare hc.linked hd.linked hwires hx).1
  · exact fun x hx => (h.bare hc.linked hd.linked hwires hx).2

theorem forM_retire_run (removal : Removal) (ids : List CellId) (c : Circuit) :
    (ids.forM (fun id => retire removal id) : Edit Unit) c = .ok () (c.dropAll removal ids) := by
  induction ids generalizing c with
  | nil => rfl
  | cons id ids ih => exact ih (c.retired removal id)

/-- What goes with a cell that is removed, and the parent it is cut off from. -/
structure Cascade where
  parent : CellId
  /-- The wires at the cells, in the order in which they go. -/
  wires : List WireId
  /-- The cells from the leaves up, so that the removed one goes last. -/
  cells : List CellId

/-- What will go with a cell. The root cannot be removed. -/
def cascade (c : Circuit) (id : CellId) : Except Fault Cascade := do
  let cell ← c.cell id
  let some parent := cell.parent | throw .rootImmovable
  let cells ← c.subtree id
  let wires ← c.wiresAt cells
  return ⟨parent, wires, cells⟩

theorem cascade_ok {id : CellId} {going : Cascade} (h : c.cascade id = .ok going) :
    c.parentOf id = some going.parent ∧ c.subtree id = .ok going.cells ∧
      c.wiresAt going.cells = .ok going.wires := by
  obtain ⟨cell, hcell, h⟩ := exists_of_bind h
  cases hup : cell.parent with
  | none =>
    rw [hup] at h
    cases h
  | some parent =>
    rw [hup] at h
    obtain ⟨cells, hcells, h⟩ := exists_of_bind h
    obtain ⟨wires, hwires, h⟩ := exists_of_bind h
    cases h
    exact ⟨(parentOf_eq (cell_ok_iff.mp hcell)).trans hup, hcells, hwires⟩

/-- A removal asks first what will go, and changes nothing before it knows. -/
theorem removeCell_eq (validate : Bool) (removal : Removal) (id : CellId) :
    removeCell validate removal id = (do
      let going ← ask (·.cascade id)
      let touched ← removeWires removal going.cells going.wires [going.parent.toId]
      onCell going.parent fun cell => { cell with children := cell.children.filter (· ≠ id) }
      going.cells.forM fun cell => retire removal cell
      validated validate touched) := by
  funext c
  cases hcell : c.cell id with
  | error fault =>
    have hcascade : c.cascade id = .error fault := by rw [cascade, hcell]; rfl
    rw [removeCell, bind_of_error (ask_of_error hcell), bind_of_error (ask_of_error hcascade)]
  | ok cell =>
  rw [removeCell, bind_of_ok (ask_of_ok hcell)]
  cases hup : cell.parent with
  | none =>
    have hcascade : c.cascade id = .error .rootImmovable := by
      rw [cascade, hcell]
      simp only [bind, Except.bind, hup]
      rfl
    rw [bind_of_error (ask_of_error hcascade)]
    rfl
  | some parent =>
  cases hsub : c.subtree id with
  | error fault =>
    have hcascade : c.cascade id = .error fault := by
      rw [cascade, hcell]
      simp only [bind, Except.bind, hup, hsub]
    rw [bind_of_error (ask_of_error hcascade)]
    exact bind_of_error (ask_of_error hsub) _
  | ok cells =>
  refine (bind_of_ok (ask_of_ok hsub) _).trans ?_
  cases hwires : c.wiresAt cells with
  | error fault =>
    have hcascade : c.cascade id = .error fault := by
      rw [cascade, hcell]
      simp only [bind, Except.bind, hup, hsub, hwires]
    rw [bind_of_error (ask_of_error hwires), bind_of_error (ask_of_error hcascade)]
  | ok wires =>
    have hcascade : c.cascade id = .ok ⟨parent, wires, cells⟩ := by
      rw [cascade, hcell]
      simp only [bind, Except.bind, hup, hsub, hwires]
      rfl
    rw [bind_of_ok (ask_of_ok hwires), bind_of_ok (ask_of_ok hcascade)]

/-- The circuit without a cell and all that goes with it. -/
def prune (c : Circuit) (removal : Removal) (id : CellId) (going : Cascade) : Circuit :=
  ((c.dropWires removal going.wires).changeCell going.parent fun cell =>
    { cell with children := cell.children.filter (· ≠ id) }).dropAll removal going.cells

theorem Sound.prune (h : c.Sound) (removal : Removal) {id : CellId} {going : Cascade}
    (hcascade : c.cascade id = .ok going) : (c.prune removal id going).Sound := by
  obtain ⟨hup, hsub, hwires⟩ := cascade_ok hcascade
  exact h.dropSubtree (h.dropWires removal going.wires) hup hsub hwires
    (severed_dropWires c removal going.wires) removal

/-- A cell that cannot be removed stays, and so does all else. -/
theorem removeCell_of_error (validate : Bool) (removal : Removal) {id : CellId} {fault : Fault}
    (hcascade : c.cascade id = .error fault) : removeCell validate removal id c = .error fault c := by
  rw [removeCell_eq, bind_of_error (ask_of_error hcascade)]

/-- Once it is known what will go, no look-up fails. -/
theorem removeCell_of_ok (h : c.Sound) (validate : Bool) (removal : Removal) {id : CellId}
    {going : Cascade} (hcascade : c.cascade id = .ok going) :
    ∃ touched, removeCell validate removal id c =
      validated validate touched (c.prune removal id going) := by
  obtain ⟨hup, hsub, hwires⟩ := cascade_ok hcascade
  obtain ⟨touched, hrun⟩ := removeWires_run h removal going.cells
    (fun w hw => h.linked.source_of_mem_wiresAt hwires hw) (nodup_of_wiresAt hwires)
    [going.parent.toId]
  have hsevered := severed_dropWires c removal going.wires
  obtain ⟨above, habove⟩ := (h.dropWires removal going.wires).linked.parent_live
    (hsevered.parent ▸ hup)
  refine ⟨touched, ?_⟩
  rw [removeCell_eq, bind_of_ok (ask_of_ok hcascade), bind_of_ok hrun,
    bind_of_ok (onCell_run habove _), bind_of_ok (forM_retire_run ..)]
  rfl

theorem Sound.removeCell (h : c.Sound) (validate : Bool) (removal : Removal) (id : CellId) :
    ((Circuit.removeCell validate removal id).final c).Sound := by
  cases hcascade : c.cascade id with
  | error fault =>
    rw [final_of_error (removeCell_of_error validate removal hcascade)]
    exact h
  | ok going =>
    obtain ⟨touched, hrun⟩ := removeCell_of_ok h validate removal hcascade
    rw [final_of_run hrun, final_validated]
    exact h.prune removal hcascade

theorem Sound.purge (h : c.Sound) : (Circuit.purge.final c).Sound :=
  ⟨h.linked.of_live_eq rfl, h.owned.purge⟩

end Circuit

end PulseCircuit
