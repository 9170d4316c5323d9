import PulseCircuit.Proofs.BeatEffect

/-!
# No cell is filled twice in a row

A beat tags the cells it fills, and it clears the tags of the beat before only once all its questions are
answered. While they are asked a tagged cell takes no creation pulse, whatever its kind is by then and over
whatever way the pulse comes. So the tag bars a cell for exactly one beat:

* `Sound.tagged_iff`: after a beat the tagged cells are those the beat has filled;
* `Call.Aside.tagged_iff`, `tagged_performAll_iff`: firing and what is about the memory of a machine leave tags
  alone, one call and many;
* `Sound.not_tags_of_tagged`: a beat does not fill a cell that is tagged;
* `not_refilled`: what follows for two beats with nothing but such calls between them.
-/

namespace PulseCircuit

open Circuit Evaluator Running

/-- The cell is live and was filled in the last beat. -/
def Circuit.Tagged (c : Circuit) (id : CellId) : Prop :=
  ∃ cell, c.cell id = .ok cell ∧ cell.hasTag .justCreated = true

/-- The beat tags the cell, that is, a creation pulse fills it. -/
def BeatReport.Tags (report : BeatReport) (id : CellId) : Prop := ∃ key, .tag id key ∈ report.operations

theorem Circuit.tagged_iff {c : Circuit} {id : CellId} :
    c.Tagged id ↔ ∃ cell, c.cell? id = some cell ∧ cell.hasTag .justCreated = true := by
  simp only [Tagged, cell_ok_iff]

/-- A change of cells that leaves their tags alone. -/
theorem Circuit.tagged_changeCell {c : Circuit} (id : CellId) {change : Cell → Cell}
    (htags : ∀ cell, (change cell).tags = cell.tags) (x : CellId) :
    (c.changeCell id change).Tagged x ↔ c.Tagged x := by
  have hsame : ((c.changeCell id change).cell? x).map Cell.tags = (c.cell? x).map Cell.tags := by
    rw [cell?_changeCell]
    split
    next hx =>
      rw [hx, Option.map_map]
      exact congrArg (fun f => (c.cell? id).map f) (funext htags)
    next => rfl
  rw [tagged_iff, tagged_iff]
  cases hnew : (c.changeCell id change).cell? x with
  | none =>
    rw [hnew] at hsame
    have hnone : c.cell? x = none := Option.map_eq_none_iff.mp hsame.symm
    simp [hnone]
  | some new =>
    rw [hnew] at hsame
    obtain ⟨old, hold, heq⟩ := Option.map_eq_some_iff.mp hsame.symm
    simp [hold, Cell.hasTag, heq]

namespace Machine

variable {m m' : Machine} {gathered : Harvest} {id : CellId}

/-! ## One beat -/

/-- Only an untagged cell is filled. -/
theorem Fills.untagged {template : Template} {old : Cell} (hfills : m.Fills id template) (h : m.Sound)
    (hold : m.circuit.cell? id = some old) : old.hasTag .justCreated = false := by
  obtain ⟨colour, operations, hfinds⟩ := hfills
  rcases hfinds.halted_cases h hold rfl with ⟨_, -, -, htag⟩ | ⟨heq, -⟩
  · exact htag
  · cases heq

/-- What a beat tags are live cells, and it tags those that it fills. -/
theorem Harvested.tags_iff (hharvest : m.Harvested gathered) (h : m.Sound) {stats : EvalStats} :
    (m.report gathered stats).Tags id ↔
      ∃ old template, m.circuit.cell? id = some old ∧ m.Fills id template := by
  have hreported : (m.report gathered stats).Tags id ↔ .tag id .justCreated ∈ gathered.operations := by
    constructor
    · rintro ⟨⟨⟩, hmem⟩
      exact (mem_report_operations.mp hmem).1
    · intro hmem
      exact ⟨.justCreated, mem_report_operations.mpr ⟨hmem, by simp⟩⟩
  rw [hreported]
  constructor
  · intro hmem
    obtain ⟨old, hold⟩ : ∃ old, m.circuit.cell? id = some old := hharvest.suits h _ hmem
    obtain ⟨template, hfills⟩ := (hharvest.mem_tag_iff h hold).mp hmem
    exact ⟨old, template, hold, hfills⟩
  · rintro ⟨old, template, hold, hfills⟩
    exact (hharvest.mem_tag_iff h hold).mpr ⟨template, hfills⟩

/-- Right after a beat the tagged cells are those that the beat has tagged. -/
theorem Sound.tagged_iff (h : m.Sound) {report : BeatReport} (hbeat : Machine.beat m = .ok report m')
    (id : CellId) : m'.circuit.Tagged id ↔ report.Tags id := by
  obtain ⟨gathered, stats, projected, hharvest, hproject, rfl, rfl⟩ := h.beat_cases_of_ok hbeat
  have hlayout : m.circuit.SameLayout projected :=
    (hharvest.sameLayout_changed h).trans (.of_project hproject)
  rw [hharvest.tags_iff h, Circuit.tagged_iff]
  constructor
  · rintro ⟨new, hnew, htag⟩
    -- the cell was there before the beat, and the beat has made the new one of it
    have hsame := hlayout.cell id
    rw [show projected.cell? id = some new from hnew] at hsame
    obtain ⟨old, hold, -⟩ := Option.map_eq_some_iff.mp hsame.symm
    obtain ⟨other, hother, hdone⟩ := hharvest.cellDone h hproject hold
    cases hother.symm.trans hnew
    obtain ⟨template, hfills⟩ := hdone.tagged.mp htag
    exact ⟨old, template, hold, hfills⟩
  · rintro ⟨old, template, hold, hfills⟩
    obtain ⟨new, hnew, hdone⟩ := hharvest.cellDone h hproject hold
    exact ⟨new, hnew, hdone.tagged.mpr ⟨template, hfills⟩⟩

/-- A beat does not tag a cell that is tagged when it begins. -/
theorem Sound.not_tags_of_tagged (h : m.Sound) {report : BeatReport}
    (hbeat : Machine.beat m = .ok report m') (htagged : m.circuit.Tagged id) : ¬ report.Tags id := by
  obtain ⟨gathered, stats, projected, hharvest, -, rfl, -⟩ := h.beat_cases_of_ok hbeat
  rw [hharvest.tags_iff h]
  rintro ⟨old, template, hold, hfills⟩
  obtain ⟨cell, hcell, htag⟩ := Circuit.tagged_iff.mp htagged
  cases hold.symm.trans hcell
  have huntagged := hfills.untagged h hold
  rw [htag] at huntagged
  cases huntagged

/-! ## Between two beats -/

/-- A call that edits nothing but pulses, and runs no beat. -/
def Call.Aside : Call → Prop
  | .fire _ _ | .setHistoryLimit _ | .enableLedger => True
  | .edit _ _ | .beat => False

instance (call : Call) : Decidable call.Aside := by
  cases call <;> unfold Call.Aside <;> infer_instance

theorem circuit_fire (m : Machine) (id : CellId) (colour : Colour) :
    ((Machine.fire id colour).final m).circuit =
      m.circuit.changeCell id fun cell => { cell with fire := cell.fire.set colour (some .raw) } := by
  have hedit : ((Machine.editing (Circuit.fireCell m.validate id colour)).final m).circuit =
      m.circuit.changeCell id fun cell => { cell with fire := cell.fire.set colour (some .raw) } := by
    rw [final_editing, Circuit.fireCell, Circuit.fire, setPulse, Edit.final_onCell_validated]
  refine final_bind (P := fun d : Machine => d.circuit =
    m.circuit.changeCell id fun cell => { cell with fire := cell.fire.set colour (some .raw) }) hedit ?_
  intro _ _ _ hd
  exact hd

/-- Such a call leaves tags alone, whether it succeeds or fails. -/
theorem Call.Aside.tagged_iff {call : Call} (haside : call.Aside) (m : Machine) (id : CellId) :
    (call.perform m).circuit.Tagged id ↔ m.circuit.Tagged id := by
  cases call with
  | edit validate action => exact False.elim haside
  | fire fired colour =>
    rw [Call.perform, circuit_fire]
    apply tagged_changeCell
    intro cell
    rfl
  | setHistoryLimit limit => rfl
  | enableLedger => rfl
  | beat => exact False.elim haside

/-- So do many of them. -/
theorem tagged_performAll_iff {calls : List Call} (haside : ∀ call ∈ calls, call.Aside) (m : Machine)
    (id : CellId) : (m.performAll calls).circuit.Tagged id ↔ m.circuit.Tagged id := by
  induction calls generalizing m with
  | nil => rfl
  | cons call calls ih =>
    have hfirst := (haside call List.mem_cons_self).tagged_iff m id
    have hrest := ih (fun other hmem => haside other (List.mem_cons_of_mem _ hmem)) (call.perform m)
    exact hrest.trans hfirst

/-! ## Runs -/

/-- A machine that is made for a reachable circuit is one that edits can lead to. -/
theorem Reachable.ofCircuit {c : Circuit} (hc : c.Reachable) (validate : Bool) :
    (Machine.ofCircuit validate c).Reachable := by
  induction hc with
  | initial => exact .new validate
  | step _ checked action ih => exact ih.call (.edit checked action)

/-- In every run from a reachable circuit, the cells that are tagged after a beat are those that the beat has
filled, and the next beat fills none of them if nothing but firing and changes of the memory come between. -/
theorem not_refilled {validate : Bool} {c : Circuit} (hc : c.Reachable) (before : List Call)
    {report : BeatReport} {m : Machine}
    (hbeat : Machine.beat ((Machine.ofCircuit validate c).performAll before) = .ok report m) :
    (∀ id, m.circuit.Tagged id ↔ report.Tags id) ∧
      ∀ between, (∀ call ∈ between, Call.Aside call) → ∀ next m',
        Machine.beat (m.performAll between) = .ok next m' → ∀ id, report.Tags id → ¬ next.Tags id := by
  have hrun : ((Machine.ofCircuit validate c).performAll before).Reachable :=
    (Reachable.ofCircuit hc validate).performAll before
  have hafter : m.Reachable := by
    have hcall := hrun.call .beat
    rwa [Call.perform, final_of_ok hbeat] at hcall
  have htagged := hrun.sound.tagged_iff hbeat
  constructor
  · exact htagged
  · intro between haside next m' hnext id hfilled
    have hstill : (m.performAll between).circuit.Tagged id :=
      (tagged_performAll_iff haside m id).mpr ((htagged id).mpr hfilled)
    exact (hafter.performAll between).sound.not_tags_of_tagged hnext hstill

/-- A slot that is fed by a cell below another one. The pulse there would fill it with a slot again, and stays
as long as the upper cell is lit. -/
def refilling : Circuit :=
  Circuit.initial.performAll true
    [.createCell .root .relay .origin, .createCell ⟨1⟩ .relay .origin, .createCell .root .slot .origin,
      .createWire ⟨2⟩ ⟨3⟩ .any .now, .fire ⟨1⟩ .red .raw,
      .fire ⟨2⟩ .red (.creation (some ⟨.slot, .origin⟩))]

/-- The same pulse comes to the same slot in two beats, and fills it in the first one only. -/
theorem not_refilled_slot :
    ∃ report m next m', Machine.beat (Machine.ofCircuit true refilling) = .ok report m ∧
      Machine.beat (m.performAll [.fire ⟨1⟩ .red, .setHistoryLimit 3]) = .ok next m' ∧
      (∀ id, m.circuit.Tagged id ↔ report.Tags id) ∧ (∀ id, report.Tags id → ¬ next.Tags id) ∧
      report.operations = [.modify ⟨3⟩ (.ofKind .slot), .tag ⟨3⟩ .justCreated] ∧
      next.firing = [⟨1⟩, ⟨2⟩] := by
  have hread : Machine.beat.read? (fun report m => (report.operations,
        Machine.beat.read? (fun next _ => next.firing) (m.performAll [.fire ⟨1⟩ .red, .setHistoryLimit 3])))
      (Machine.ofCircuit true refilling) =
      some ([.modify ⟨3⟩ (.ofKind .slot), .tag ⟨3⟩ .justCreated], some [⟨1⟩, ⟨2⟩]) := by
    decide +kernel
  obtain ⟨report, m, hbeat, hlook⟩ := exists_of_read? hread
  obtain ⟨hoperations, hagain⟩ := Prod.mk.inj hlook
  obtain ⟨next, m', hnext, hfiring⟩ := exists_of_read? hagain
  have hreachable : refilling.Reachable := .performAll .initial true _
  obtain ⟨htagged, hbarred⟩ := not_refilled hreachable [] hbeat
  have haside : ∀ call ∈ [Call.fire ⟨1⟩ .red, .setHistoryLimit 3], call.Aside := by decide
  exact ⟨report, m, next, m', hbeat, hnext, htagged, hbarred _ haside _ _ hnext, hoperations, hfiring⟩

end Machine

end PulseCircuit
