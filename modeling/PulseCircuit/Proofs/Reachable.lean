import PulseCircuit.Proofs.Counting
import PulseCircuit.Proofs.Removals

/-!
# Reachable circuits

A circuit is reachable if it comes from the initial one by any edits, in any order, with any arguments,
validated or not. An edit that fails counts with what it changed before.

* `Reachable.sound`: reachable circuits are sound, by one case for each edit;
* `Reachable.wellLinked`: what that says about rows, read off the look-ups;
* `Reachable.ids_owned`: what it says about ids.
-/

namespace PulseCircuit

namespace Circuit

open Edit Running

/-- One edit with its arguments. -/
inductive Action where
  | createCell (parent : CellId) (kind : CellKind) (position : Position)
  | createWire (source target : CellId) (colour : ColourFilter) (timing : Timing)
  | fireCell (id : CellId) (colour : Colour)
  | fire (id : CellId) (colour : Colour) (pulse : Pulse)
  | clearFire (id : CellId) (colour : Colour)
  | tagCell (id : CellId) (tag : CellTag)
  | clearTags
  | modifyCell (id : CellId) (patch : CellPatch)
  | modifyWire (id : WireId) (patch : WirePatch)
  | deleteCell (id : CellId)
  | archiveCell (id : CellId)
  | deleteWire (id : WireId)
  | archiveWire (id : WireId)
  | purge

/-- The circuit an action leaves behind, whether it succeeds or fails. -/
def Action.perform (validate : Bool) : Action → Circuit → Circuit
  | .createCell parent kind position => (Circuit.createCell validate parent kind position).final
  | .createWire source target colour timing =>
    (Circuit.createWire validate source target colour timing).final
  | .fireCell id colour => (Circuit.fireCell validate id colour).final
  | .fire id colour pulse => (Circuit.fire validate id colour pulse).final
  | .clearFire id colour => (Circuit.clearFire validate id colour).final
  | .tagCell id tag => (Circuit.tagCell validate id tag).final
  | .clearTags => Circuit.clearTags.final
  | .modifyCell id patch => (Circuit.modifyCell validate id patch).final
  | .modifyWire id patch => (Circuit.modifyWire validate id patch).final
  | .deleteCell id => (Circuit.deleteCell validate id).final
  | .archiveCell id => (Circuit.archiveCell validate id).final
  | .deleteWire id => (Circuit.deleteWire validate id).final
  | .archiveWire id => (Circuit.archiveWire validate id).final
  | .purge => Circuit.purge.final

/-- The circuits that come from the initial one by actions. -/
inductive Reachable : Circuit → Prop where
  | initial : Reachable .initial
  | step {c : Circuit} (h : Reachable c) (validate : Bool) (action : Action) :
    Reachable (action.perform validate c)

/-- The circuit some actions leave behind, each on what the one before it left. -/
def performAll (validate : Bool) (actions : List Action) (c : Circuit) : Circuit :=
  actions.foldl (fun c action => action.perform validate c) c

theorem Reachable.performAll {c : Circuit} (h : Reachable c) (validate : Bool)
    (actions : List Action) : Reachable (c.performAll validate actions) := by
  induction actions generalizing c with
  | nil => exact h
  | cons action actions ih => exact ih (h.step validate action)

/-! ## The invariant -/

theorem get?_initial (id : Id) :
    initial.live.get? id =
      if id = CellId.root.toId then some (.cell (.fresh .root none .relay .origin)) else none :=
  Table.get?_insert ..

theorem cell?_initial (id : CellId) :
    initial.cell? id = if id = .root then some (.fresh .root none .relay .origin) else none := by
  rw [cell?, get?_initial]
  by_cases hid : id = .root
  · simp [hid]
  · simp [hid, CellId.toId_inj]

theorem wire?_initial (id : WireId) : initial.wire? id = none := by
  rw [wire?, get?_initial]
  split
  next wire hrow =>
    split at hrow <;> cases hrow
  next => rfl

/-- At the start there is only the root, which has no links. -/
theorem linked_initial : initial.Linked := by
  -- there are no wires, and the root lists none
  have hempty : ∀ {f : Cell → List WireId}, f (.fresh .root none .relay .origin) = [] →
      Mutual (initial.ofCells fun cell => some (f cell)) (fun _ : WireId => none) := by
    intro f hf
    constructor
    · intro id w
      simp only [ofCells, cell?_initial, reduceCtorEq, iff_false]
      split <;> simp [hf]
    · intro id ws hws
      simp only [ofCells, cell?_initial] at hws
      split at hws
      next => simp_all
      next => cases hws
  have hwires : ∀ {f : Wire → Option CellId}, initial.ofWires f = fun _ => none := by
    intro f
    funext id
    simp [ofWires, wire?_initial]
  have hchildren : initial.childrenOf = fun id => if id = .root then some [] else none := by
    funext id
    simp only [childrenOf, ofCells, cell?_initial]
    split <;> rfl
  have hparent : initial.parentOf = fun _ => none := by
    funext id
    simp only [parentOf, ofCells, cell?_initial]
    split <;> rfl
  refine ⟨?_, ?_, ?_, ?_⟩
  · intro id row hrow
    rw [get?_initial] at hrow
    split at hrow
    next hid =>
      cases hrow
      exact hid.symm
    next => cases hrow
  · rw [hchildren, hparent]
    refine ⟨⟨?_, ?_⟩, ⟨[], if_pos rfl⟩, ?_, ?_⟩
    · intro a b
      simp only [reduceCtorEq, iff_false]
      split <;> simp
    · intro a bs hbs
      split at hbs <;> simp_all
    · intro a bs hbs
      split at hbs <;> simp_all
    · intro a bs hbs
      split at hbs
      next ha => exact ha ▸ Relation.ReflTransGen.refl
      next => cases hbs
  · rw [sourceOf, hwires]
    exact hempty rfl
  · rw [targetOf, hwires]
    exact hempty rfl

theorem owned_initial : initial.Owned := by
  have hids : initial.ids = ⟨1, -1, [], [], []⟩ := rfl
  refine ⟨fun id => ?_, rfl, ?_, ?_, ?_⟩
  · have hlive : initial.live.contains id = if id = CellId.root.toId then true else false := by
      rw [Table.contains, get?_initial]
      split <;> rfl
    have harchive : initial.archive.contains id = false := rfl
    obtain ⟨raw⟩ := id
    simp only [hlive, harchive, hids, IdPool.free, IdPool.minted, CellId.toId, CellId.root,
      Id.mk.injEq, List.map_nil, List.append_nil, List.count_nil, Bool.toNat_false]
    -- the only id between the counters is that of the root
    by_cases hraw : raw = 0
    · subst hraw
      rfl
    · have hnot : ¬ (-1 < raw ∧ raw < 1) := by omega
      rw [if_neg hraw, if_neg hnot]
      rfl
  · rw [hids]
    exact ⟨by decide, by decide, by simp, by simp⟩
  · intro id row hrow
    rw [get?_initial] at hrow
    split at hrow
    next hid =>
      cases hrow
      rw [hid]
      rfl
    next => cases hrow
  · intro id row hrow
    cases hrow

theorem sound_initial : initial.Sound := ⟨linked_initial, owned_initial⟩

/-- No action, whether it succeeds or fails, leaves an unsound circuit behind. -/
theorem Sound.perform {c : Circuit} (h : c.Sound) (validate : Bool) (action : Action) :
    (action.perform validate c).Sound := by
  cases action with
  | createCell parent kind position => exact h.createCell validate parent kind position
  | createWire source target colour timing =>
    exact h.createWire validate source target colour timing
  | fireCell id colour => exact h.setPulse validate id colour (some .raw)
  | fire id colour pulse => exact h.setPulse validate id colour (some pulse)
  | clearFire id colour => exact h.setPulse validate id colour none
  | tagCell id tag => exact h.tagCell validate id tag
  | clearTags => exact h.withoutTags
  | modifyCell id patch => exact h.modifyCell validate id patch
  | modifyWire id patch => exact h.modifyWire validate id patch
  | deleteCell id => exact h.removeCell validate .delete id
  | archiveCell id => exact h.removeCell validate .archive id
  | deleteWire id => exact h.removeWire validate .delete id
  | archiveWire id => exact h.removeWire validate .archive id
  | purge => exact h.purge

theorem Reachable.sound {c : Circuit} (h : Reachable c) : c.Sound := by
  induction h with
  | initial => exact sound_initial
  | step _ validate action ih => exact ih.perform validate action

/-! ## Links, row by row -/

/-- Every row lies under the id it carries, the cells form one tree, each child is listed once by its
parent, and the wires of a cell are listed there, each of them once. -/
structure WellLinked (c : Circuit) : Prop where
  row_id : ∀ id row, c.live.get? id = some row → row.id = id
  root_live : ∃ root, c.cell .root = .ok root
  parent_eq_none_iff : ∀ id cell, c.cell id = .ok cell → (cell.parent = none ↔ id = .root)
  parent_eq_some_iff : ∀ id cell parent, c.cell id = .ok cell →
    (cell.parent = some parent ↔ ∃ above, c.cell parent = .ok above ∧ id ∈ above.children)
  child_live : ∀ id cell child, c.cell id = .ok cell → child ∈ cell.children →
    ∃ below, c.cell child = .ok below
  children_nodup : ∀ id cell, c.cell id = .ok cell → cell.children.Nodup
  reaches_root : ∀ id cell, c.cell id = .ok cell →
    Relation.ReflTransGen (fun x y => ∃ cell, c.cell x = .ok cell ∧ cell.parent = some y) id .root
  source_live : ∀ id wire, c.wire id = .ok wire → ∃ source, c.cell wire.source = .ok source
  target_live : ∀ id wire, c.wire id = .ok wire → ∃ target, c.cell wire.target = .ok target
  mem_inputs_iff : ∀ id cell w, c.cell id = .ok cell →
    (w ∈ cell.inputs ↔ ∃ wire, c.wire w = .ok wire ∧ wire.target = id)
  inputs_nodup : ∀ id cell, c.cell id = .ok cell → cell.inputs.Nodup
  mem_outputs_iff : ∀ id cell w, c.cell id = .ok cell →
    (w ∈ cell.outputs ↔ ∃ wire, c.wire w = .ok wire ∧ wire.source = id)
  outputs_nodup : ∀ id cell, c.cell id = .ok cell → cell.outputs.Nodup

section Reading

variable {c : Circuit}

theorem parentOf_eq_some_iff {id parent : CellId} :
    c.parentOf id = some parent ↔ ∃ cell, c.cell id = .ok cell ∧ cell.parent = some parent := by
  simp only [parentOf, ofCells, Option.bind_eq_some_iff, cell_ok_iff]

theorem sourceOf_eq_some_iff {w : WireId} {id : CellId} :
    c.sourceOf w = some id ↔ ∃ wire, c.wire w = .ok wire ∧ wire.source = id := by
  simp only [sourceOf, ofWires, Option.bind_eq_some_iff, wire_ok_iff, Option.some.injEq]

theorem targetOf_eq_some_iff {w : WireId} {id : CellId} :
    c.targetOf w = some id ↔ ∃ wire, c.wire w = .ok wire ∧ wire.target = id := by
  simp only [targetOf, ofWires, Option.bind_eq_some_iff, wire_ok_iff, Option.some.injEq]

theorem Linked.toWellLinked (h : c.Linked) : c.WellLinked where
  row_id id row hrow := h.keyed hrow
  root_live := by
    obtain ⟨bs, hbs⟩ := h.tree.top_mem
    obtain ⟨root, hroot⟩ := cell?_of_ofCells hbs
    exact ⟨root, cell_ok_iff.mpr hroot⟩
  parent_eq_none_iff id cell hcell := h.parent_eq_none_iff (cell_ok_iff.mp hcell)
  parent_eq_some_iff id cell parent hcell := by
    rw [cell_ok_iff] at hcell
    rw [← parentOf_eq hcell]
    constructor
    · intro hup
      obtain ⟨above, habove⟩ := h.parent_live hup
      exact ⟨above, cell_ok_iff.mpr habove,
        h.tree.links.mem_of_target (childrenOf_eq habove) hup⟩
    · rintro ⟨above, habove, hlisted⟩
      exact h.tree.links.target_of_mem (childrenOf_eq (cell_ok_iff.mp habove)) hlisted
  child_live id cell child hcell hchild := by
    have hup := h.tree.links.target_of_mem (childrenOf_eq (cell_ok_iff.mp hcell)) hchild
    obtain ⟨below, hbelow⟩ := cell?_of_ofCells hup
    exact ⟨below, cell_ok_iff.mpr hbelow⟩
  children_nodup id cell hcell := h.tree.links.nodup (childrenOf_eq (cell_ok_iff.mp hcell))
  reaches_root id cell hcell := by
    have hclimbs := h.tree.climbs (childrenOf_eq (cell_ok_iff.mp hcell))
    exact Relation.ReflTransGen.mono (fun x y hxy => parentOf_eq_some_iff.mp hxy) _ _ hclimbs
  source_live id wire hwire := by
    obtain ⟨source, hsource⟩ := h.source_live (wire_ok_iff.mp hwire)
    exact ⟨source, cell_ok_iff.mpr hsource⟩
  target_live id wire hwire := by
    obtain ⟨target, htarget⟩ := h.target_live (wire_ok_iff.mp hwire)
    exact ⟨target, cell_ok_iff.mpr htarget⟩
  mem_inputs_iff id cell w hcell := by
    have hlist := inputsOf_eq (cell_ok_iff.mp hcell)
    rw [← targetOf_eq_some_iff]
    exact ⟨h.targets.target_of_mem hlist, h.targets.mem_of_target hlist⟩
  inputs_nodup id cell hcell := h.targets.nodup (inputsOf_eq (cell_ok_iff.mp hcell))
  mem_outputs_iff id cell w hcell := by
    have hlist := outputsOf_eq (cell_ok_iff.mp hcell)
    rw [← sourceOf_eq_some_iff]
    exact ⟨h.sources.target_of_mem hlist, h.sources.mem_of_target hlist⟩
  outputs_nodup id cell hcell := h.sources.nodup (outputsOf_eq (cell_ok_iff.mp hcell))

end Reading

/-- The links of a reachable circuit agree, whatever was done to it and however much of it failed. -/
theorem Reachable.wellLinked {c : Circuit} (h : Reachable c) : c.WellLinked :=
  h.sound.linked.toWellLinked

/-- A wire is moved to another source and to a target that does not exist, which fails half-way. Then the cell it
leads to is moved below another one, and a move below itself fails. -/
def rewired : Circuit :=
  initial.performAll true
    [.createCell .root .relay .origin, .createCell .root .relay .origin, .createCell ⟨1⟩ .relay .origin,
      .createWire ⟨2⟩ ⟨3⟩ .any .now,
      .modifyWire ⟨-1⟩ { WirePatch.empty with source := some ⟨1⟩, target := some ⟨7⟩ },
      .modifyCell ⟨3⟩ { CellPatch.empty with parent := some ⟨2⟩ },
      .modifyCell ⟨2⟩ { CellPatch.empty with parent := some ⟨3⟩ }]

/-- The wire and the cell that were moved are there, and their links agree. -/
theorem wellLinked_after_failure :
    rewired.wire ⟨-1⟩ = .ok ⟨⟨-1⟩, ⟨1⟩, ⟨3⟩, .any, .now⟩ ∧
      (rewired.cell ⟨3⟩).map (fun cell => (cell.parent, cell.inputs)) = .ok (some ⟨2⟩, [⟨-1⟩]) ∧
      (rewired.cell ⟨2⟩).map (fun cell => (cell.parent, cell.children)) = .ok (some .root, [⟨3⟩]) ∧
      rewired.WellLinked :=
  ⟨by decide, by decide, by decide, Reachable.wellLinked (.performAll .initial true _)⟩

/-! ## Ids -/

theorem validated_bind_ok {α : Type} {c d : Circuit} {validate : Bool} {touched : List Id} {a b : α}
    (h : (validated validate touched >>= fun _ => pure a) c = .ok b d) : b = a := by
  obtain ⟨u, e, -, hrest⟩ := exists_of_bind_run h
  cases hrest
  rfl

theorem Owned.absent_of_createCell {c d : Circuit} (h : c.Owned) {validate : Bool}
    {parent id : CellId} {kind : CellKind} {position : Position}
    (hrun : createCell validate parent kind position c = .ok id d) :
    c.contains id = false ∧ c.isArchived id = false := by
  obtain ⟨above, hparent, -⟩ := exists_of_ask hrun
  rw [createCell_run (cell_ok_iff.mp hparent)] at hrun
  rw [validated_bind_ok hrun]
  exact h.absent_of_hands h.pool.takeCell.2

theorem Owned.absent_of_createWire {c d : Circuit} (h : c.Owned) {validate : Bool}
    {source target : CellId} {id : WireId} {colour : ColourFilter} {timing : Timing}
    (hrun : createWire validate source target colour timing c = .ok id d) :
    c.contains id = false ∧ c.isArchived id = false := by
  obtain ⟨left, hsource, hrest⟩ := exists_of_ask hrun
  obtain ⟨reached, htarget, -⟩ := exists_of_ask hrest
  rw [createWire_run h (cell_ok_iff.mp hsource) (cell_ok_iff.mp htarget)] at hrun
  rw [validated_bind_ok hrun]
  exact h.absent_of_hands h.pool.takeWire.2

/-- An action moves a counter only if no id of that kind was given back. -/
theorem Action.counters_perform (action : Action) (validate : Bool) (c : Circuit) :
    ((action.perform validate c).ids.nextCell ≠ c.ids.nextCell → c.ids.freeCells = []) ∧
    ((action.perform validate c).ids.nextWire ≠ c.ids.nextWire → c.ids.freeWires = []) := by
  -- an edit that never moves a counter has nothing to show
  have hkept : ∀ {α : Type} {edit : Edit α}, Leads SameCounters edit →
      ((edit.final c).ids.nextCell ≠ c.ids.nextCell → c.ids.freeCells = []) ∧
      ((edit.final c).ids.nextWire ≠ c.ids.nextWire → c.ids.freeWires = []) := by
    intro α edit hedit
    exact ⟨fun hne => absurd (hedit c).1 hne, fun hne => absurd (hedit c).2 hne⟩
  cases action with
  | createCell parent kind position =>
    obtain ⟨hcell, hwire⟩ := counters_createCell (c := c) validate parent kind position
    exact ⟨hcell, fun hne => absurd hwire hne⟩
  | createWire source target colour timing =>
    obtain ⟨hcell, hwire⟩ := counters_createWire (c := c) validate source target colour timing
    exact ⟨fun hne => absurd hcell hne, hwire⟩
  | fireCell id colour => exact hkept (tolerant_sameCounters.setPulse _ _ _ _)
  | fire id colour pulse => exact hkept (tolerant_sameCounters.setPulse _ _ _ _)
  | clearFire id colour => exact hkept (tolerant_sameCounters.setPulse _ _ _ _)
  | tagCell id tag => exact hkept (tolerant_sameCounters.tagCell _ _ _)
  | clearTags => exact hkept tolerant_sameCounters.clearTags
  | modifyCell id patch => exact hkept (tolerant_sameCounters.modifyCell _ _ _)
  | modifyWire id patch => exact hkept (tolerant_sameCounters.modifyWire _ _ _)
  | deleteCell id => exact hkept (tolerant_sameCounters.removeCell _ _ _)
  | archiveCell id => exact hkept (tolerant_sameCounters.removeCell _ _ _)
  | deleteWire id => exact hkept (tolerant_sameCounters.removeWire _ _ _)
  | archiveWire id => exact hkept (tolerant_sameCounters.removeWire _ _ _)
  | purge => exact hkept tolerant_sameCounters.purge

/-- In a reachable circuit each id that was handed out has one owner. So a new row gets an id that
neither a live nor an archived row has, and a counter moves only if no id of its kind was given back. -/
theorem Reachable.ids_owned {c : Circuit} (h : Reachable c) :
    c.OneOwner ∧
    (∀ validate parent kind position id d, createCell validate parent kind position c = .ok id d →
      c.contains id = false ∧ c.isArchived id = false) ∧
    (∀ validate source target colour timing id d,
      createWire validate source target colour timing c = .ok id d →
      c.contains id = false ∧ c.isArchived id = false) ∧
    ∀ validate (action : Action),
      ((action.perform validate c).ids.nextCell ≠ c.ids.nextCell → c.ids.freeCells = []) ∧
      ((action.perform validate c).ids.nextWire ≠ c.ids.nextWire → c.ids.freeWires = []) := by
  have howned := h.sound.owned
  refine ⟨howned.oneOwner, ?_, ?_, fun validate action => action.counters_perform validate c⟩
  · intro validate parent kind position id d hrun
    exact howned.absent_of_createCell hrun
  · intro validate source target colour timing id d hrun
    exact howned.absent_of_createWire hrun

/-- Of two cells one is archived, whose id is held, and one deleted, whose id is free. -/
theorem ids_owned_after_removals :
    (initial.performAll true
      [.createCell .root .relay .origin, .createCell .root .relay .origin, .archiveCell ⟨1⟩,
        .deleteCell ⟨2⟩]).OneOwner ∧
    (initial.performAll true
      [.createCell .root .relay .origin, .createCell .root .relay .origin, .archiveCell ⟨1⟩,
        .deleteCell ⟨2⟩]).ids = ⟨3, -1, [⟨2⟩], [], [⟨1⟩]⟩ := by
  constructor
  · exact (Reachable.ids_owned (.performAll .initial true _)).1
  · decide

end Circuit

end PulseCircuit
