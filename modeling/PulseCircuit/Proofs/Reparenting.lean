import PulseCircuit.Proofs.Cascades

/-!
# Hanging a cell below another

A cell can be hung below any live cell that does not lie below it, and takes along what lies below it. The
cells below it are gathered on the way down, before anything is changed, and in a sound circuit they are those
from which the way up leads over the cell. So whether the move fails, and how, can be said in terms of parents,
and what fails has changed nothing (`Reachable.reparent_outcome`).
-/

namespace PulseCircuit

namespace Circuit

open Edit

variable {c d : Circuit}

/-! ## What a move leaves behind -/

/-- `d` is `c` with a cell restyled and hung below another parent, last among the children there. If the
parent is the one it had, it keeps its place there. Nothing else has changed, and the same lies below any cell
that was moved along. -/
structure Rehung (c d : Circuit) (id old parent : CellId) (patch : CellPatch) : Prop where
  moved : ∀ cell, c.cell id = .ok cell → d.cell id = .ok { cell.restyle patch with parent := some parent }
  others : ∀ x cell, x ≠ id → c.cell x = .ok cell → d.cell x = .ok { cell with
    children :=
      if old = parent then cell.children
      else if x = old then cell.children.filter (· ≠ id)
      else if x = parent then cell.children ++ [id]
      else cell.children }
  below_iff : ∀ x, Climbs c.parentOf id x → ∀ y, Climbs d.parentOf x y ↔ Climbs c.parentOf x y
  wire_iff : ∀ w wire, d.wire w = .ok wire ↔ c.wire w = .ok wire
  keys : d.live.keys = c.live.keys
  archive : d.archive = c.archive
  ids : d.ids = c.ids

variable {id old parent : CellId} {patch : CellPatch}

theorem parentOf_restyle (c : Circuit) (id : CellId) (patch : CellPatch) :
    (c.changeCell id (·.restyle patch)).parentOf = c.parentOf :=
  ofCells_changeCell_same id fun _ => rfl

/-- Below its old parent a cell is restyled only. -/
theorem rehung_restyled (hup : c.parentOf id = some parent) :
    c.Rehung (c.changeCell id (·.restyle patch)) id parent parent patch where
  moved := by
    intro cell hcell
    rw [cell_ok_iff] at hcell ⊢
    have hparent : cell.parent = some parent := (parentOf_eq hcell).symm.trans hup
    rw [cell?_changeCell, if_pos rfl, hcell, ← hparent]
    rfl
  others := by
    intro x cell hx hcell
    rw [cell_ok_iff] at hcell ⊢
    rw [cell?_changeCell, if_neg hx, hcell, if_pos rfl]
  below_iff := by
    intro x _ y
    rw [parentOf_restyle]
  wire_iff := by
    intro w wire
    rw [wire_ok_iff, wire_ok_iff, wire?_changeCell]
  keys := keys_changeCell ..
  archive := archive_changeCell ..
  ids := ids_changeCell ..

/-- No cell is its own parent, so the moved cell has the children it had. -/
theorem cell?_cellMoved_self (hold : id ≠ old) (hparent : id ≠ parent) :
    (c.cellMoved id old parent).cell? id =
      (c.cell? id).map fun cell => { cell with parent := some parent } := by
  rw [cellMoved, cell?_changeCell, if_pos rfl, cell?_changeCell, if_neg hparent, cell?_changeCell,
    if_neg hold]

theorem cell?_cellMoved_of_ne (hne : old ≠ parent) {x : CellId} (hx : x ≠ id) :
    (c.cellMoved id old parent).cell? x = (c.cell? x).map fun cell => { cell with
      children :=
        if x = old then cell.children.filter (· ≠ id)
        else if x = parent then cell.children ++ [id]
        else cell.children } := by
  simp only [cellMoved, cell?_changeCell_eq_map, Option.map_map, if_neg hx]
  congr 1
  funext cell
  simp only [Function.comp_apply]
  by_cases hold : x = old
  · have hparent : x ≠ parent := fun heq => hne (hold.symm.trans heq)
    rw [if_pos hold, if_neg hparent, if_pos hold]
  · rw [if_neg hold, if_neg hold]
    split <;> rfl

/-- Where the lists of both parents change, the tree is one again, so below the moved cells no way up has
changed. -/
theorem Linked.rehung_moved (h : c.Linked) (hup : c.parentOf id = some old) {below : Cell}
    (hparent : c.cell? parent = some below) (hnot : ¬ Climbs c.parentOf id parent) (hne : old ≠ parent) :
    c.Rehung ((c.cellMoved id old parent).changeCell id (·.restyle patch)) id old parent patch where
  moved := by
    intro cell hcell
    rw [cell_ok_iff] at hcell ⊢
    have hold : id ≠ old := by
      rintro rfl
      exact h.tree.acyclic id (.single hup)
    have hself : id ≠ parent := by
      rintro rfl
      exact hnot Relation.ReflTransGen.refl
    rw [cell?_changeCell, if_pos rfl, cell?_cellMoved_self hold hself, hcell]
    rfl
  others := by
    intro x cell hx hcell
    rw [cell_ok_iff] at hcell ⊢
    rw [cell?_changeCell, if_neg hx, cell?_cellMoved_of_ne hne hx, hcell, if_neg hne]
    rfl
  below_iff := by
    intro x hx y
    obtain ⟨above, habove⟩ := h.parent_live hup
    -- the moved cell is on no cycle, neither before nor afterwards
    have hmoved := (h.moveCell hup habove hparent hne hnot).tree.acyclic id
    have hparents := parentOf_cellMoved (cell?_of_ofCells hup) old parent
    rw [parentOf_restyle]
    refine Climbs.below_iff (h.tree.acyclic id) hmoved (fun z hz => ?_) hx
    rw [hparents, Function.update_of_ne hz]
  wire_iff := by
    intro w wire
    simp only [wire_ok_iff, cellMoved, wire?_changeCell]
  keys := by simp only [cellMoved, keys_changeCell]
  archive := by simp only [cellMoved, archive_changeCell]
  ids := by simp only [cellMoved, ids_changeCell]

/-! ## When a move fails -/

namespace Sound

theorem modifyCell_root (h : c.Sound) (validate : Bool) (hpatch : patch.parent = some parent) :
    Circuit.modifyCell validate .root patch c = .error .rootImmovable c := by
  obtain ⟨cell, hcell⟩ := h.linked.root_live
  -- whatever the new parent is, it is not looked at
  have htop : cell.parent = none := (parentOf_eq hcell).symm.trans h.linked.tree.parent_top
  exact modifyCell_of_error validate hpatch (reparent_of_top (cell_ok_iff.mpr hcell) htop parent)

variable {cell : Cell}

/-- Without a live cell as parent the move fails before the tree is looked at. -/
theorem modifyCell_missing (h : c.Sound) (validate : Bool) (hpatch : patch.parent = some parent)
    (hcell : c.cell id = .ok cell) (hup : cell.parent = some old) (hnoun : parent.toId.noun = .cell)
    (hgone : ∀ below, c.cell parent ≠ .ok below) :
    Circuit.modifyCell validate id patch c = .error (.notFound parent) c := by
  cases hparent : c.cell parent with
  | ok below => exact absurd hparent (hgone below)
  | error fault =>
    rw [modifyCell_of_error validate hpatch (reparent_of_missing hcell hup hparent),
      h.owned.cell_error hnoun hparent]

theorem modifyCell_below (h : c.Sound) (validate : Bool) (hpatch : patch.parent = some parent)
    (hcell : c.cell id = .ok cell) (hup : cell.parent = some old) (hbelow : Climbs c.parentOf id parent) :
    Circuit.modifyCell validate id patch c = .error (.cyclicParent id parent) c := by
  have hlive := cell_ok_iff.mp hcell
  obtain ⟨lower, hsub⟩ := h.linked.checked.subtree_ok hlive
  obtain ⟨below, hparent⟩ := live_of_climbs ⟨cell, hlive⟩ hbelow
  exact modifyCell_of_error validate hpatch
    (reparent_of_below h.linked hcell hup (cell_ok_iff.mpr hparent) hsub hbelow)

/-- In all other cases the cell is moved. -/
theorem modifyCell_rehangs (h : c.Sound) (validate : Bool) (hpatch : patch.parent = some parent)
    (hcell : c.cell id = .ok cell) (hup : cell.parent = some old) {below : Cell}
    (hparent : c.cell parent = .ok below) (hnot : ¬ Climbs c.parentOf id parent) :
    ∃ d, Circuit.modifyCell validate id patch c = .ok () d ∧ c.Rehung d id old parent patch := by
  have hlive := cell_ok_iff.mp hcell
  have hold : c.parentOf id = some old := (parentOf_eq hlive).trans hup
  obtain ⟨lower, hsub⟩ := h.linked.checked.subtree_ok hlive
  by_cases hne : old = parent
  · -- the cell is listed there already, and is not listed anew
    subst hne
    have hrun := reparent_of_same h.linked hcell hup hparent hsub hnot
    exact ⟨_, h.modifyCell_of_ok validate hpatch hrun ⟨cell, hlive⟩, rehung_restyled hold⟩
  · have hrun := reparent_of_other h.linked hcell hup hparent hsub hnot hne
    exact ⟨_, h.modifyCell_of_ok validate hpatch hrun (live_cellMoved ⟨cell, hlive⟩ id old parent),
      h.linked.rehung_moved hold (cell_ok_iff.mp hparent) hnot hne⟩

end Sound

/-- Whether a cell can be hung below another depends on the ways up only. The root cannot be hung anywhere.
Any other live cell cannot be hung below a cell that is not there, nor below itself or a cell from which the
way up leads over it. It can be hung below all others. -/
theorem Reachable.reparent_outcome (h : Reachable c) (validate : Bool)
    (hpatch : patch.parent = some parent) :
    modifyCell validate .root patch c = .error .rootImmovable c ∧
    ∀ id cell, c.cell id = .ok cell → id ≠ .root →
      (0 ≤ parent.raw → (∀ below, c.cell parent ≠ .ok below) →
        modifyCell validate id patch c = .error (.notFound parent) c) ∧
      (Climbs c.parentOf id parent →
        modifyCell validate id patch c = .error (.cyclicParent id parent) c) ∧
      ((∃ below, c.cell parent = .ok below) → ¬ Climbs c.parentOf id parent →
        ∃ old d, cell.parent = some old ∧ modifyCell validate id patch c = .ok () d ∧
          c.Rehung d id old parent patch) := by
  have hsound := h.sound
  refine ⟨hsound.modifyCell_root validate hpatch, fun id cell hcell hid => ?_⟩
  obtain ⟨old, hup⟩ := hsound.linked.exists_parent (cell_ok_iff.mp hcell) hid
  refine ⟨fun hraw => hsound.modifyCell_missing validate hpatch hcell hup (CellId.noun_toId hraw),
    hsound.modifyCell_below validate hpatch hcell hup, ?_⟩
  rintro ⟨below, hparent⟩ hnot
  obtain ⟨d, hrun, hrehung⟩ := hsound.modifyCell_rehangs validate hpatch hcell hup hparent hnot
  exact ⟨old, d, hup, hrun, hrehung⟩

/-- A cell is to hang below another and to be one that records. -/
def recordingBelow (parent : CellId) : CellPatch :=
  { CellPatch.ofParent parent with kind := some .recording }

/-- The third cell can be hung below the second, and not below the fourth, which hangs below it. -/
theorem reparent_outcome_nested :
    (∃ d, modifyCell true ⟨3⟩ (recordingBelow ⟨2⟩) nested = .ok () d ∧
      nested.Rehung d ⟨3⟩ ⟨1⟩ ⟨2⟩ (recordingBelow ⟨2⟩)) ∧
    modifyCell true ⟨3⟩ (recordingBelow ⟨4⟩) nested = .error (.cyclicParent ⟨3⟩ ⟨4⟩) nested ∧
    modifyCell true ⟨3⟩ (recordingBelow ⟨9⟩) nested = .error (.notFound ⟨9⟩) nested ∧
    modifyCell true .root (recordingBelow ⟨2⟩) nested = .error .rootImmovable nested := by
  have hreachable : Reachable nested := .performAll .initial true _
  obtain ⟨cell, hcell⟩ : ∃ cell, nested.cell ⟨3⟩ = .ok cell := ⟨_, rfl⟩
  have hbelow : ∀ x, x ∈ [⟨4⟩, ⟨3⟩] ↔ Climbs nested.parentOf ⟨3⟩ x := fun x =>
    mem_subtree_iff hreachable.sound.linked rfl
  have hpatch : ∀ x, (recordingBelow x).parent = some x := fun _ => rfl
  obtain ⟨hroot, hmoves⟩ := hreachable.reparent_outcome true (hpatch ⟨2⟩)
  obtain ⟨-, hcycle, -⟩ := (hreachable.reparent_outcome true (hpatch ⟨4⟩)).2 ⟨3⟩ cell hcell (by decide)
  obtain ⟨hgone, -⟩ := (hreachable.reparent_outcome true (hpatch ⟨9⟩)).2 ⟨3⟩ cell hcell (by decide)
  refine ⟨?_, hcycle ((hbelow _).mp (by decide)), hgone (by decide) (by rintro below ⟨⟩), hroot⟩
  obtain ⟨old, d, hold, hrun, hrehung⟩ := (hmoves ⟨3⟩ cell hcell (by decide)).2.2 ⟨_, rfl⟩
    fun hclimbs => by simpa using (hbelow _).mpr hclimbs
  cases hcell
  cases hold
  exact ⟨d, hrun, hrehung⟩

end Circuit

end PulseCircuit
