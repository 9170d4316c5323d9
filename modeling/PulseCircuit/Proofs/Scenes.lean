import PulseCircuit.CommandLine.Execution
import PulseCircuit.Proofs.DyingOut
import PulseCircuit.Proofs.Safe

/-!
# Scenes that run

What a scene is built into comes from the initial circuit by creating cells and wires and by storing pulses,
and the positions in it are those the scene declares. Where all of them are made of numbers each row equals
itself, and a state that comes again is recognised. So every question ends, every beat succeeds, and the
command that runs the scene prints a line for each of them.

* `Scene.Drawn`, `Scene.drawn_of_build`: what is true of a circuit a scene is built into;
* `Evaluator.attempt`, `Evaluator.attempt_of_reply`: a question that may go deeper than it needs to has the
  answer it has;
* `Scene.runs_of_load`: scenes with numbers for positions run.
-/

namespace PulseCircuit

open Circuit Evaluator Running

namespace Scene

/-! ## Building -/

/-- All positions that are declared are made of numbers. -/
def Numeric (scene : Scene) : Prop := ∀ cell ∈ scene.cells, cell.position.Numeric

instance (scene : Scene) : Decidable scene.Numeric := inferInstanceAs (Decidable (∀ cell ∈ _, _))

/-- The circuit comes about by edits, and its positions are made of numbers. -/
structure Drawn (c : Circuit) : Prop where
  reachable : c.Reachable
  numeric : c.Numeric

theorem edit_of_editing {α : Type} {n n' : NamedCircuit} {edit : Edit α} {explain : Fault → SceneError} {a : α}
    (h : n.editing edit explain = .ok (a, n')) : edit n.circuit = .ok a n'.circuit := by
  rw [NamedCircuit.editing] at h
  cases hrun : edit n.circuit with
  | ok b c =>
    rw [hrun] at h
    cases h
    rfl
  | error fault c =>
    rw [hrun] at h
    cases h

theorem drawn_initial : Drawn .initial := ⟨.initial, by decide⟩

namespace Drawn

variable {c d : Circuit} {validate : Bool}

theorem createCell (h : Drawn c) {parent id : CellId} {kind : CellKind} {position : Position}
    (hposition : position.Numeric) (hrun : Circuit.createCell validate parent kind position c = .ok id d) :
    Drawn d := by
  have hreachable := h.reachable.step validate (.createCell parent kind position)
  rw [Action.perform, final_of_ok hrun] at hreachable
  refine ⟨hreachable, ?_⟩
  obtain ⟨above, hparent, -⟩ := Edit.exists_of_ask hrun
  have hfinal := final_of_run (createCell_run (cell_ok_iff.mp hparent) validate kind position)
  rw [final_of_ok hrun, Edit.final_validated_bind] at hfinal
  rw [hfinal]
  have hids : Circuit.Numeric { c with ids := c.ids.takeCell.2 } := h.numeric
  have hfresh : (Cell.fresh c.ids.takeCell.1 (some parent) kind position).Numeric :=
    ⟨hposition, Fire.numeric_none⟩
  exact (hids.put_cell _ hfresh).changeCell parent fun cell hcell => ⟨hcell.1, hcell.2⟩

theorem createWire (h : Drawn c) {source target : CellId} {id : WireId} {colour : ColourFilter}
    {timing : Timing} (hrun : Circuit.createWire validate source target colour timing c = .ok id d) :
    Drawn d := by
  have hreachable := h.reachable.step validate (.createWire source target colour timing)
  rw [Action.perform, final_of_ok hrun] at hreachable
  refine ⟨hreachable, ?_⟩
  obtain ⟨left, hsource, hrest⟩ := Edit.exists_of_ask hrun
  obtain ⟨reached, htarget, -⟩ := Edit.exists_of_ask hrest
  have howned := h.reachable.sound.owned
  have hfinal := final_of_run (createWire_run howned (cell_ok_iff.mp hsource) (cell_ok_iff.mp htarget)
    validate colour timing)
  rw [final_of_ok hrun, Edit.final_validated_bind] at hfinal
  rw [hfinal]
  have hids : Circuit.Numeric { c with ids := c.ids.takeWire.2 } := h.numeric
  -- the pool hands out an id that no row has
  have hnew : c.live.get? c.ids.takeWire.1 = none := by
    simpa [Table.contains] using (howned.absent_of_hands howned.pool.takeWire.2).1
  have hput := hids.put_wire hnew ⟨c.ids.takeWire.1, source, target, colour, timing⟩
  refine (hput.changeCell source fun cell hcell => ?_).changeCell target fun cell hcell => ?_
  · exact ⟨hcell.1, hcell.2⟩
  · exact ⟨hcell.1, hcell.2⟩

theorem fire (h : Drawn c) {id : CellId} {colour : Colour} {kind : PulseKind} {u : Unit}
    (hrun : Circuit.fire validate id colour (.ofKind kind) c = .ok u d) : Drawn d := by
  have hreachable := h.reachable.step validate (.fire id colour (.ofKind kind))
  rw [Action.perform, final_of_ok hrun] at hreachable
  refine ⟨hreachable, ?_⟩
  have hfinal := Edit.final_onCell_validated (c := c) id
    (fun cell => { cell with fire := cell.fire.set colour (some (.ofKind kind)) }) validate [id.toId]
  rw [← setPulse, ← Circuit.fire, final_of_ok hrun] at hfinal
  rw [hfinal]
  refine h.numeric.changeCell id fun cell hcell => ⟨hcell.1, fun other pulse hpulse => ?_⟩
  by_cases hother : other = colour
  · subst hother
    rw [Fire.get_set_self] at hpulse
    cases hpulse
    cases kind <;> trivial
  · rw [Fire.get_set_of_ne _ _ hother] at hpulse
    exact hcell.2 other pulse hpulse

end Drawn

theorem drawn_declareCell {validate : Bool} {n n' : NamedCircuit} (h : Drawn n.circuit) {cell : DeclaredCell}
    (hposition : cell.position.Numeric) (hdeclare : declareCell validate n cell = .ok n') :
    Drawn n'.circuit := by
  -- whatever its parent is, the cell is created below it
  have hcreated : ∀ {parent : CellId}, ((n.editing (Circuit.createCell validate parent cell.kind cell.position)
      (.creating cell.name)).bind fun created =>
        .ok { created.2 with names := created.2.names.insert cell.name created.1 }) = .ok n' →
      Drawn n'.circuit := by
    intro parent hcreated
    obtain ⟨⟨id, built⟩, hediting, hbuilt⟩ := exists_of_bind hcreated
    have hdrawn : Drawn built.circuit := h.createCell hposition (edit_of_editing hediting)
    cases hbuilt
    exact hdrawn
  rw [declareCell] at hdeclare
  split at hdeclare
  · cases hdeclare
  · dsimp only at hdeclare
    split at hdeclare
    · obtain ⟨parent, -, hrest⟩ := exists_of_bind hdeclare
      exact hcreated hrest
    · obtain ⟨parent, -, hrest⟩ := exists_of_bind hdeclare
      exact hcreated hrest

theorem drawn_declareWire {validate : Bool} {n n' : NamedCircuit} (h : Drawn n.circuit) {wire : DeclaredWire}
    (hdeclare : declareWire validate n wire = .ok n') : Drawn n'.circuit := by
  obtain ⟨source, -, hrest⟩ := exists_of_bind hdeclare
  obtain ⟨target, -, hrest⟩ := exists_of_bind hrest
  obtain ⟨⟨id, built⟩, hediting, hbuilt⟩ := exists_of_bind hrest
  cases hbuilt
  exact h.createWire (edit_of_editing hediting)

theorem drawn_declarePulse {validate : Bool} {n n' : NamedCircuit} (h : Drawn n.circuit)
    {pulse : DeclaredPulse} (hdeclare : declarePulse validate n pulse = .ok n') : Drawn n'.circuit := by
  obtain ⟨cell, -, hrest⟩ := exists_of_bind hdeclare
  obtain ⟨⟨u, built⟩, hediting, hbuilt⟩ := exists_of_bind hrest
  cases hbuilt
  exact h.fire (edit_of_editing hediting)

/-- A scene with numbers for positions is built into a circuit with numbers only. -/
theorem drawn_of_build {scene : Scene} (hnumeric : scene.Numeric) {validate : Bool} {n : NamedCircuit}
    (hbuild : scene.build validate = .ok n) : Drawn n.circuit := by
  obtain ⟨withCells, hcells, hrest⟩ := exists_of_bind hbuild
  obtain ⟨withWires, hwires, hpulses⟩ := exists_of_bind hrest
  have hdrawn : Drawn withCells.circuit :=
    foldlM_keeps (P := fun n : NamedCircuit => Drawn n.circuit)
      (fun cell hcell _ _ hdeclare hn => drawn_declareCell hn (hnumeric cell hcell) hdeclare)
      hcells drawn_initial
  have hwired : Drawn withWires.circuit :=
    foldlM_keeps (P := fun n : NamedCircuit => Drawn n.circuit)
      (fun _ _ _ _ hdeclare hn => drawn_declareWire hn hdeclare) hwires hdrawn
  exact foldlM_keeps (P := fun n : NamedCircuit => Drawn n.circuit)
    (fun _ _ _ _ hdeclare hn => drawn_declarePulse hn hdeclare) hpulses hwired

end Scene

/-! ## Questions -/

namespace Evaluator

/-- The answer to a query where the walk may go so many cells deep. -/
def attempt (e : Evaluator) (fuel : Nat) (q : Query) : Except Fault Peak :=
  (peakAt (peakNow fuel) 0 q.id q.colour q.timing).answer e

/-- An answer is the same however much deeper the walk may go. -/
theorem attempt_of_reply {e : Evaluator} {q : Query} {peak : Peak} (hreply : e.reply q = .ok peak) {fuel : Nat}
    (hle : e.depthBound ≤ fuel) : e.attempt fuel q = .ok peak := by
  have hdeep := (walk_of_reply hreply).mono (by simp) hle
  have hwalk : IsWalk fuel _ (peakAt (peakNow fuel) 0 q.id q.colour q.timing) e :=
    isWalk_peakAt (isWalk_peakNow fuel) 0 q.id q.colour q.timing e
  exact (Walk.unique hwalk hdeep).1

end Evaluator

/-! ## Beats -/

/-- A run that succeeds prints its reports. -/
theorem Command.runBeats_of_run {count : Nat} {m m' : Machine} {reports : List BeatReport}
    (h : Machine.run count m = .ok reports m') :
    Command.runBeats count m = ⟨reports.map BeatReport.toJson, none⟩ := by
  induction count generalizing m reports with
  | zero =>
    cases h
    rfl
  | succ count ih =>
    rw [Machine.run] at h
    obtain ⟨report, d, hbeat, hrest⟩ := exists_of_bind_run h
    obtain ⟨rest, d', hrun, hlast⟩ := exists_of_bind_run hrest
    cases hlast
    rw [Command.runBeats, hbeat]
    simp only [ih hrun, List.map_cons]

namespace Scene

/-- What can be done with a circuit that a scene was built into. -/
structure Runs (validate : Bool) (n : NamedCircuit) : Prop where
  /-- Every question about a live cell is answered, and the walk for it ends by itself. -/
  answers : ∀ id cell colour timing, n.circuit.cell id = .ok cell →
    ∃ peak, n.circuit.getPeak validate id colour timing [] [] = .ok peak ∧
      ∃ enough, ∀ fuel, enough ≤ fuel →
        (ofHistory validate n.circuit [] []).attempt fuel ⟨id, colour, timing⟩ = .ok peak
  /-- Any number of beats can be run, however many circuits are remembered. -/
  beats : ∀ limit count, ∃ reports m',
    Machine.run count ((Machine.ofCircuit validate n.circuit).setHistoryLimit limit) = .ok reports m' ∧
      reports.length = count
  /-- The command succeeds and prints a line for each beat. -/
  prints : ∀ count history, (Command.runOn validate n count history).failure = none ∧
    (Command.runOn validate n count history).lines.length = count

/-- Beats of a machine for sound circuit with numbers for positions succeed. -/
theorem Drawn.run_ok {c : Circuit} (h : Drawn c) (validate : Bool) (limit count : Nat) :
    ∃ reports m', Machine.run count ((Machine.ofCircuit validate c).setHistoryLimit limit) = .ok reports m' ∧
      reports.length = count := by
  have hsteady := Machine.Steady.start h.reachable.sound validate limit
  obtain ⟨reports, m', hrun, hlength, -⟩ := hsteady.run_ok h.numeric.placed (Machine.faded_start _) count
  exact ⟨reports, m', hrun, hlength⟩

/-- A scene that declares numbers for all positions, and is built, can be asked and run. -/
theorem runs_of_load {text : String} {validate : Bool} {n : NamedCircuit}
    (hload : Scene.load validate text = .ok n) (hnumeric : ∀ scene ∈ Scene.ofToml? text, scene.Numeric)
    (checks : Bool) : Runs checks n := by
  rw [Scene.load] at hload
  split at hload
  next scene hscene =>
    have hdrawn := drawn_of_build (hnumeric scene hscene) hload
    have hchecked := hdrawn.reachable.sound.linked.checked
    refine ⟨?_, hdrawn.run_ok checks, ?_⟩
    · intro id cell colour timing hcell
      obtain ⟨peak, hpeak⟩ := hchecked.getPeak_ok hdrawn.numeric checks hcell colour timing
      exact ⟨peak, hpeak, _, fun fuel hle => attempt_of_reply (q := ⟨id, colour, timing⟩) hpeak hle⟩
    · intro count history
      obtain ⟨reports, m', hrun, hlength⟩ :=
        hdrawn.run_ok checks (history.getD Machine.defaultHistory) count
      have hlines : Command.runOn checks n count history = ⟨reports.map BeatReport.toJson, none⟩ := by
        refine Eq.trans ?_ (Command.runBeats_of_run hrun)
        cases history <;> rfl
      rw [hlines]
      exact ⟨rfl, by rw [List.length_map, hlength]⟩
  next => cases hload

/-- A cell as far off as can be, which feeds itself a tick later. -/
def remote : String :=
  "[[cell]]\nname = \"a\"\nx = inf\n" ++
  "[[wire]]\nsource = \"a\"\ntarget = \"a\"\ntiming = \"past\"\n" ++
  "[[fire]]\ncell = \"a\"\ncolour = \"red\"\n"

theorem runs_remote :
    (∀ scene ∈ Scene.ofToml? remote, scene.Numeric) ∧
      ∃ n, Scene.load true remote = .ok n ∧ n.names.keys = ["root", "a"] ∧ Runs true n := by
  have hnumeric : ∀ scene ∈ Scene.ofToml? remote, scene.Numeric := by decide +kernel
  refine ⟨hnumeric, ?_⟩
  have hnames : (Scene.load true remote).toOption.map (·.names.keys) = some ["root", "a"] := by
    decide +kernel
  cases hload : Scene.load true remote with
  | error e =>
    rw [hload] at hnames
    cases hnames
  | ok n =>
    rw [hload] at hnames
    exact ⟨n, rfl, Option.some.inj hnames, runs_of_load hload hnumeric true⟩

end Scene

end PulseCircuit
