import PulseCircuit.Proofs.Consistent
import PulseCircuit.Proofs.Reachable

/-!
# Edits that fail

An edit looks up what it needs before it changes anything, and what it checks at the end is in order, so
where it fails it leaves the circuit as it was. One edit does not keep to this. Moving both ends of a wire
moves the source before it looks for the new target, so if that target is not there the source stays moved
(`HalfMove.modifyWire_run`). No other failure changes anything (`Reachable.changed_by_fault_iff`).
-/

namespace PulseCircuit

namespace Circuit

open Edit Running

/-- The edit an action stands for. What it returns is left out. -/
def Action.run (validate : Bool) : Action → Edit Unit
  | .createCell parent kind position => do
    let _ ← Circuit.createCell validate parent kind position
  | .createWire source target colour timing => do
    let _ ← Circuit.createWire validate source target colour timing
  | .fireCell id colour => Circuit.fireCell validate id colour
  | .fire id colour pulse => Circuit.fire validate id colour pulse
  | .clearFire id colour => Circuit.clearFire validate id colour
  | .tagCell id tag => Circuit.tagCell validate id tag
  | .clearTags => Circuit.clearTags
  | .modifyCell id patch => Circuit.modifyCell validate id patch
  | .modifyWire id patch => Circuit.modifyWire validate id patch
  | .deleteCell id => Circuit.deleteCell validate id
  | .archiveCell id => Circuit.archiveCell validate id
  | .deleteWire id => Circuit.deleteWire validate id
  | .archiveWire id => Circuit.archiveWire validate id
  | .purge => do
    let _ ← Circuit.purge

/-- An action leaves behind what its run ends with. -/
theorem Action.final_run (validate : Bool) (action : Action) (c : Circuit) :
    (action.run validate).final c = action.perform validate c := by
  cases action with
  | createCell parent kind position =>
    rw [run, perform, EStateM.final, EStateM.final]
    simp only [bind, EStateM.bind]
    cases Circuit.createCell validate parent kind position c <;> rfl
  | createWire source target colour timing =>
    rw [run, perform, EStateM.final, EStateM.final]
    simp only [bind, EStateM.bind]
    cases Circuit.createWire validate source target colour timing c <;> rfl
  | _ => rfl

/-! ## Failing before any change -/

/-- If the edit fails, it leaves the circuit as it was. -/
def FailsClean {α : Type} (edit : Edit α) (c : Circuit) : Prop :=
  ∀ fault d, edit c = .error fault d → d = c

variable {c d : Circuit} {α β : Type}

theorem FailsClean.of_error {edit : Edit α} (fault : Fault) (h : edit c = .error fault c) :
    FailsClean edit c := by
  intro other d hrun
  rw [h] at hrun
  cases hrun
  rfl

theorem FailsClean.of_ok {edit : Edit α} {a : α} (h : edit c = .ok a d) : FailsClean edit c := by
  intro fault d hrun
  rw [h] at hrun
  cases hrun

/-- What a run returns does not matter. -/
theorem FailsClean.discarded {edit : Edit α} (h : FailsClean edit c) :
    FailsClean (do let _ ← edit) c := by
  intro fault d hrun
  cases hedit : edit c with
  | ok a e =>
    rw [bind_of_ok hedit] at hrun
    cases hrun
  | error other e =>
    rw [bind_of_error hedit] at hrun
    cases hrun
    exact h _ _ hedit

/-- A linked circuit passes the check at the end of an edit. -/
theorem Linked.validated_run (h : c.Linked) (validate : Bool) (touched : List Id) :
    validated validate touched c = .ok () c := by
  unfold validated
  split
  · exact ask_of_ok (h.checkLive_ok touched)
  · rfl

/-- An edit that comes down to a check of a sound circuit does not fail. -/
theorem Sound.run_of_validated {edit : Edit α} (hsound : (edit.final c).Sound) {validate : Bool}
    {touched : List Id} {a : α}
    (hrun : edit c = (validated validate touched >>= fun _ => pure a) d) : edit c = .ok a d := by
  rw [final_of_run hrun, final_validated_bind] at hsound
  rw [hrun, bind_of_ok (hsound.linked.validated_run validate touched)]
  rfl

/-! ## One edit after the other -/

namespace Sound

theorem createCell_failsClean (h : c.Sound) (validate : Bool) (parent : CellId) (kind : CellKind)
    (position : Position) : FailsClean (Circuit.createCell validate parent kind position) c := by
  cases hparent : c.cell parent with
  | error fault => exact .of_error fault (bind_of_error (ask_of_error hparent) _)
  | ok above =>
    exact .of_ok (Sound.run_of_validated (h.createCell validate parent kind position)
      (createCell_run (cell_ok_iff.mp hparent) ..))

theorem createWire_failsClean (h : c.Sound) (validate : Bool) (source target : CellId)
    (colour : ColourFilter) (timing : Timing) :
    FailsClean (Circuit.createWire validate source target colour timing) c := by
  cases hsource : c.cell source with
  | error fault => exact .of_error fault (bind_of_error (ask_of_error hsource) _)
  | ok left =>
  cases htarget : c.cell target with
  | error fault =>
    refine .of_error fault ?_
    rw [Circuit.createWire, bind_of_ok (ask_of_ok hsource), bind_of_error (ask_of_error htarget)]
  | ok reached =>
    exact .of_ok (Sound.run_of_validated (h.createWire validate source target colour timing)
      (createWire_run h.owned (cell_ok_iff.mp hsource) (cell_ok_iff.mp htarget) ..))

end Sound

namespace Linked

/-- A change of one live cell that touches no link succeeds. -/
theorem onCell_validated_run (h : c.Linked) {id : CellId} {cell : Cell} (hcell : c.cell? id = some cell)
    {change : Cell → Cell} (hsame : ∀ cell, Cell.SameLinks (change cell) cell) (validate : Bool)
    (touched : List Id) :
    (onCell id change >>= fun _ => validated validate touched) c =
      .ok () (c.changeCell id change) := by
  rw [bind_of_ok (onCell_run hcell change), (h.changeCell id hsame).validated_run]

theorem onCell_validated_failsClean (h : c.Linked) (id : CellId) {change : Cell → Cell}
    (hsame : ∀ cell, Cell.SameLinks (change cell) cell) (validate : Bool) (touched : List Id) :
    FailsClean (onCell id change >>= fun _ => validated validate touched) c := by
  cases hcell : c.cell id with
  | error fault =>
    refine .of_error fault ?_
    rw [onCell, bind_assoc, bind_of_error (ask_of_error hcell)]
  | ok cell => exact .of_ok (h.onCell_validated_run (cell_ok_iff.mp hcell) hsame validate touched)

/-- A change of one live wire that touches no link succeeds. -/
theorem onWire_validated_run (h : c.Linked) {id : WireId} {wire : Wire} (hwire : c.wire? id = some wire)
    {change : Wire → Wire} (hsame : ∀ wire, Wire.SameEnds (change wire) wire) (validate : Bool)
    (touched : List Id) :
    (onWire id change >>= fun _ => validated validate touched) c =
      .ok () (c.changeWire id change) := by
  rw [bind_of_ok (onWire_run hwire change), (h.changeWire id hsame).validated_run]

end Linked

namespace Sound

theorem modifyCell_of_error (validate : Bool) {id parent : CellId} {patch : CellPatch}
    (hpatch : patch.parent = some parent) {fault : Fault} (hrun : reparent id parent c = .error fault d) :
    Circuit.modifyCell validate id patch c = .error fault d := by
  rw [Circuit.modifyCell, hpatch, Circuit.reparent?, bind_assoc, bind_of_error hrun]

/-- A cell that is where it is to be is restyled. -/
theorem modifyCell_of_ok (h : c.Sound) (validate : Bool) {id old parent : CellId} {patch : CellPatch}
    (hpatch : patch.parent = some parent) (hrun : reparent id parent c = .ok old d)
    (hlive : ∃ cell, d.cell? id = some cell) :
    Circuit.modifyCell validate id patch c = .ok () (d.changeCell id (·.restyle patch)) := by
  have hsound := h.reparent? id (some parent)
  rw [Circuit.reparent?, final_bind_of_ok hrun] at hsound
  have hd : d.Linked := hsound.linked
  obtain ⟨cell, hcell⟩ := hlive
  rw [Circuit.modifyCell, hpatch, Circuit.reparent?, bind_assoc, bind_of_ok hrun]
  exact hd.onCell_validated_run hcell (Cell.sameLinks_restyle patch) validate _

theorem modifyCell_failsClean (h : c.Sound) (validate : Bool) (id : CellId) (patch : CellPatch) :
    FailsClean (Circuit.modifyCell validate id patch) c := by
  have hrestyle : ∀ touched, FailsClean (onCell id (·.restyle patch) >>= fun _ =>
      validated validate touched) c := fun touched =>
    h.linked.onCell_validated_failsClean id (Cell.sameLinks_restyle patch) validate touched
  cases hpatch : patch.parent with
  | none =>
    have hstart : Circuit.modifyCell validate id patch c =
        (onCell id (·.restyle patch) >>= fun _ => validated validate [id.toId]) c := by
      rw [Circuit.modifyCell, hpatch]
      rfl
    intro fault d hrun
    exact hrestyle _ fault d (hstart.symm.trans hrun)
  | some parent =>
    rcases reparent_run h.linked id parent with ⟨fault, hrun⟩ | hrun |
      ⟨old, above, below, hup, -, -, -, -, hrun⟩
    · exact .of_error fault (modifyCell_of_error validate hpatch hrun)
    · intro fault d hfail
      rw [Circuit.modifyCell, hpatch, Circuit.reparent?, bind_assoc, bind_of_ok hrun] at hfail
      exact hrestyle _ fault d hfail
    · exact .of_ok (h.modifyCell_of_ok validate hpatch hrun
        (live_cellMoved (cell?_of_ofCells hup) id old parent))

/-- The removal of a live wire succeeds. -/
theorem removeWire_run (h : c.Sound) (validate : Bool) (removal : Removal) {id : WireId} {wire : Wire}
    (hwire : c.wire? id = some wire) :
    Circuit.removeWire validate removal id c = .ok () (c.dropWire removal id) :=
  (removeWire_of_live h.linked validate removal hwire).trans
    ((h.dropWire removal id).linked.validated_run validate _)

theorem removeWire_failsClean (h : c.Sound) (validate : Bool) (removal : Removal) (id : WireId) :
    FailsClean (Circuit.removeWire validate removal id) c := by
  cases hask : c.wire id with
  | error fault => exact .of_error fault (removeWire_of_error validate removal hask)
  | ok wire => exact .of_ok (h.removeWire_run validate removal (wire_ok_iff.mp hask))

/-- Once it is known what goes with a cell, its removal succeeds. -/
theorem removeCell_run (h : c.Sound) (validate : Bool) (removal : Removal) {id : CellId} {going : Cascade}
    (hcascade : c.cascade id = .ok going) :
    Circuit.removeCell validate removal id c = .ok () (c.prune removal id going) := by
  obtain ⟨touched, hrun⟩ := removeCell_of_ok h validate removal hcascade
  exact hrun.trans ((h.prune removal hcascade).linked.validated_run validate touched)

theorem removeCell_failsClean (h : c.Sound) (validate : Bool) (removal : Removal) (id : CellId) :
    FailsClean (Circuit.removeCell validate removal id) c := by
  cases hcascade : c.cascade id with
  | error fault => exact .of_error fault (removeCell_of_error validate removal hcascade)
  | ok going => exact .of_ok (h.removeCell_run validate removal hcascade)

end Sound

/-! ## Moving both ends of a wire -/

/-- A wire is to get another source, which is there, and another target, which is not. -/
structure HalfMove (c : Circuit) (id : WireId) (patch : WirePatch) (wire : Wire) (source target : CellId) :
    Prop where
  wire_live : c.wire id = .ok wire
  source_given : patch.source = some source
  source_ne : source ≠ wire.source
  source_live : ∃ cell, c.cell source = .ok cell
  target_given : patch.target = some target
  target_absent : ∀ cell, c.cell target ≠ .ok cell

/-- Moving a source takes no cell away and brings none. -/
theorem cell?_sourceMoved_eq_none_iff {id : WireId} {old new x : CellId} :
    (c.sourceMoved id old new).cell? x = none ↔ c.cell? x = none := by
  rw [sourceMoved, cell?_changeWire, cell?_changeCell]
  split
  next hx =>
    subst hx
    rw [Option.map_eq_none_iff, cell?_changeCell]
    split
    next hx => rw [hx, Option.map_eq_none_iff]
    next => rfl
  next =>
    rw [cell?_changeCell]
    split
    next hx => rw [hx, Option.map_eq_none_iff]
    next => rfl

/-- A half move fails at the target, when the source is moved already. -/
theorem HalfMove.modifyWire_run (hlinked : c.Linked) {id : WireId} {patch : WirePatch} {wire : Wire}
    {source target : CellId} (h : c.HalfMove id patch wire source target) (validate : Bool) :
    ∃ fault, modifyWire validate id patch c = .error fault (c.sourceMoved id wire.source source) := by
  have hwire := wire_ok_iff.mp h.wire_live
  obtain ⟨reached, hreached⟩ := h.source_live
  rcases moveSource_run hlinked hwire patch.source with ⟨new, fault, hnew, -, hgone, -⟩ |
    ⟨touched, hsame, -⟩ | ⟨new, left, reached, hnew, -, -, -, hrun⟩
  · rw [h.source_given, Option.some.injEq] at hnew
    rw [← hnew, cell_ok_iff.mp hreached] at hgone
    cases hgone
  · exact absurd (hsame source (by rw [h.source_given]; rfl)) h.source_ne
  · rw [h.source_given, Option.some.injEq] at hnew
    subst hnew
    have hgone : c.cell? target = none := by
      rw [Option.eq_none_iff_forall_ne_some]
      exact fun cell hcell => h.target_absent cell (cell_ok_iff.mpr hcell)
    -- the old target is there, so the missing one is another
    have hne : target ≠ wire.target := by
      rintro rfl
      obtain ⟨cell, hcell⟩ := hlinked.target_live hwire
      rw [hgone] at hcell
      cases hcell
    cases hask : (c.sourceMoved id wire.source source).cell target with
    | ok cell =>
      rw [cell_ok_iff, cell?_sourceMoved_eq_none_iff.mpr hgone] at hask
      cases hask
    | error fault =>
      refine ⟨fault, ?_⟩
      rw [modifyWire, bind_of_ok (ask_wire hwire), bind_of_ok hrun, h.target_given, moveTarget, if_neg hne,
        bind_assoc, bind_of_error (ask_of_error hask)]

/-- A half move changes something: the wire has its new source. -/
theorem HalfMove.sourceMoved_ne {id : WireId} {patch : WirePatch} {wire : Wire}
    {source target : CellId} (h : c.HalfMove id patch wire source target) :
    c.sourceMoved id wire.source source ≠ c := by
  intro heq
  have hwire := wire_ok_iff.mp h.wire_live
  have hmoved := wire?_sourceMoved hwire wire.source source
  rw [heq, hwire, Option.some.injEq] at hmoved
  exact h.source_ne (congrArg Wire.source hmoved).symm

/-- Any other change of a wire fails before it changes anything. -/
theorem Sound.modifyWire_failsClean (h : c.Sound) (validate : Bool) (id : WireId) (patch : WirePatch)
    (hnot : ∀ wire source target, ¬ c.HalfMove id patch wire source target) :
    FailsClean (Circuit.modifyWire validate id patch) c := by
  cases hask : c.wire id with
  | error fault => exact .of_error fault (bind_of_error (ask_of_error hask) _)
  | ok wire =>
  have hwire := wire_ok_iff.mp hask
  have hsound := (h.moveSource hwire patch.source).1
  have hsame : ∀ wire : Wire, Wire.SameEnds (wire.restyle patch) wire := fun _ => ⟨rfl, rfl, rfl⟩
  -- once the source is done with, the rest is run on the circuit it left
  have hrest : ∀ {sources d moved}, Circuit.moveSource id wire.source patch.source c = .ok sources d →
      d.wire? id = some moved → moved.target = wire.target →
      (∀ new fault, patch.target = some new → new ≠ moved.target → d.cell? new = none →
        Circuit.moveTarget id moved.target patch.target d = .error fault d → d = c) →
      FailsClean (Circuit.modifyWire validate id patch) c := by
    intro sources d moved hrun hmoved htarget hlost
    rw [final_of_ok hrun] at hsound
    have hstart : Circuit.modifyWire validate id patch c =
        (Circuit.moveTarget id moved.target patch.target >>= fun targets => do
          onWire id (·.restyle patch)
          validated validate (id.toId :: (sources ++ targets))) d := by
      rw [Circuit.modifyWire, bind_of_ok (ask_of_ok hask), bind_of_ok hrun, htarget]
    rcases moveTarget_run hsound.linked hmoved patch.target with
      ⟨new, fault, hnew, hne, hgone, htargetrun⟩ | ⟨targets, -, htargetrun⟩ |
      ⟨new, left, reached, -, hleft, hreached, hne, htargetrun⟩
    · have heq := hlost new fault hnew hne hgone htargetrun
      subst heq
      exact .of_error fault (hstart.trans (bind_of_error htargetrun _))
    · exact .of_ok (hstart.trans ((bind_of_ok htargetrun _).trans
        (hsound.linked.onWire_validated_run hmoved hsame ..)))
    · have hlinked := hsound.linked.moveTarget hmoved hleft hreached hne
      exact .of_ok (hstart.trans ((bind_of_ok htargetrun _).trans
        (hlinked.onWire_validated_run (wire?_targetMoved hmoved _ _) hsame ..)))
  rcases moveSource_run h.linked hwire patch.source with ⟨new, fault, -, -, -, hrun⟩ |
    ⟨sources, -, hrun⟩ | ⟨new, left, reached, hnew, -, hreached, hne, hrun⟩
  · refine .of_error fault ?_
    rw [Circuit.modifyWire, bind_of_ok (ask_of_ok hask), bind_of_error hrun]
  · exact hrest hrun hwire rfl fun _ _ _ _ _ _ => rfl
  · refine hrest hrun (wire?_sourceMoved hwire _ _) rfl fun target _ htarget _ hgone _ => ?_
    -- both ends move and only the source is there
    refine absurd ⟨hask, hnew, hne.symm, ⟨reached, cell_ok_iff.mpr hreached⟩, htarget, ?_⟩
      (hnot wire new target)
    intro cell hcell
    rw [cell_ok_iff, cell?_sourceMoved_eq_none_iff.mp hgone] at hcell
    cases hcell

/-! ## Any action -/

theorem Sound.failsClean (h : c.Sound) (validate : Bool) (action : Action)
    (hnot : ∀ id patch wire source target, action = .modifyWire id patch →
      ¬ c.HalfMove id patch wire source target) : FailsClean (action.run validate) c := by
  have hrestyle : ∀ (id : CellId) (change : Cell → Cell),
      (∀ cell, Cell.SameLinks (change cell) cell) →
      FailsClean (onCell id change >>= fun _ => validated validate [id.toId]) c :=
    fun id _ hsame => h.linked.onCell_validated_failsClean id hsame validate _
  cases action with
  | createCell parent kind position =>
    exact (h.createCell_failsClean validate parent kind position).discarded
  | createWire source target colour timing =>
    exact (h.createWire_failsClean validate source target colour timing).discarded
  | fireCell id colour => exact hrestyle id _ fun _ => ⟨rfl, rfl, rfl, rfl, rfl⟩
  | fire id colour pulse => exact hrestyle id _ fun _ => ⟨rfl, rfl, rfl, rfl, rfl⟩
  | clearFire id colour => exact hrestyle id _ fun _ => ⟨rfl, rfl, rfl, rfl, rfl⟩
  | tagCell id tag => exact hrestyle id _ fun _ => ⟨rfl, rfl, rfl, rfl, rfl⟩
  | clearTags => exact .of_ok (a := ()) rfl
  | modifyCell id patch => exact h.modifyCell_failsClean validate id patch
  | modifyWire id patch =>
    exact h.modifyWire_failsClean validate id patch fun wire source target =>
      hnot id patch wire source target rfl
  | deleteCell id => exact h.removeCell_failsClean validate .delete id
  | archiveCell id => exact h.removeCell_failsClean validate .archive id
  | deleteWire id => exact h.removeWire_failsClean validate .delete id
  | archiveWire id => exact h.removeWire_failsClean validate .archive id
  | purge => exact .of_ok (a := ()) rfl

/-- An action that fails on a reachable circuit changes it only by a half move, and then by the move of the
source alone. -/
theorem Reachable.changed_by_fault_iff (h : Reachable c) (validate : Bool) (action : Action)
    {fault : Fault} (hrun : action.run validate c = .error fault d) :
    (d ≠ c ↔ ∃ id patch wire source target, action = .modifyWire id patch ∧
      c.HalfMove id patch wire source target) ∧
    ∀ id patch wire source target, action = .modifyWire id patch →
      c.HalfMove id patch wire source target → d = c.sourceMoved id wire.source source := by
  have hsound := h.sound
  have hmoved : ∀ id patch wire source target, action = .modifyWire id patch →
      c.HalfMove id patch wire source target → d = c.sourceMoved id wire.source source := by
    rintro id patch wire source target rfl hhalf
    obtain ⟨other, hother⟩ := hhalf.modifyWire_run hsound.linked validate
    have hsame : Circuit.modifyWire validate id patch c = .error fault d := hrun
    rw [hother] at hsame
    cases hsame
    rfl
  refine ⟨⟨fun hne => ?_, ?_⟩, hmoved⟩
  · by_contra hnot
    push Not at hnot
    exact hne (hsound.failsClean validate action hnot fault d hrun)
  · rintro ⟨id, patch, wire, source, target, haction, hhalf⟩
    rw [hmoved id patch wire source target haction hhalf]
    exact hhalf.sourceMoved_ne

/-- Two cells in the root and a wire from one to the other. -/
def joined : Circuit :=
  initial.performAll true
    [.createCell .root .relay .origin, .createCell .root .relay .origin,
      .createWire ⟨1⟩ ⟨2⟩ .any .now]

/-- Only the source of the wire can be moved. -/
def overreach : WirePatch := { WirePatch.empty with source := some .root, target := some ⟨7⟩ }

theorem halfMove_overreach :
    joined.HalfMove ⟨-1⟩ overreach ⟨⟨-1⟩, ⟨1⟩, ⟨2⟩, .any, .now⟩ .root ⟨7⟩ where
  wire_live := rfl
  source_given := rfl
  source_ne := by decide
  source_live := ⟨_, rfl⟩
  target_given := rfl
  target_absent := by rintro cell ⟨⟩

theorem changed_by_overreach :
    (Action.modifyWire ⟨-1⟩ overreach).run true joined =
        .error (.notFound ⟨7⟩) (joined.sourceMoved ⟨-1⟩ ⟨1⟩ .root) ∧
      joined.sourceMoved ⟨-1⟩ ⟨1⟩ .root ≠ joined := by
  have hreachable : Reachable joined := .performAll .initial true _
  have hrun : (Action.modifyWire ⟨-1⟩ overreach).run true joined =
      .error (.notFound ⟨7⟩) (joined.sourceMoved ⟨-1⟩ ⟨1⟩ .root) := rfl
  exact ⟨hrun, (hreachable.changed_by_fault_iff true (.modifyWire ⟨-1⟩ overreach) hrun).1.mpr
    ⟨_, _, _, _, _, rfl, halfMove_overreach⟩⟩

/-- So a failure may leave its trace. -/
theorem changed_by_fault :
    ¬ ∀ (c d : Circuit) (validate : Bool) (action : Action) (fault : Fault), Reachable c →
      action.run validate c = .error fault d → d = c := by
  intro hall
  exact halfMove_overreach.sourceMoved_ne (hall joined _ true (.modifyWire ⟨-1⟩ overreach) _
    (.performAll .initial true _) rfl)

end Circuit

end PulseCircuit
