import PulseCircuit.Proofs.BeatEffect
import PulseCircuit.Proofs.Fading

/-!
# Pulses die out

Where no tick stores a pulse no question finds one, whatever loops and timed wires there are
(`Walk.silent`). A machine that is not fired any more comes to that point. Each beat puts out the topmost lit
cell on every way up, so the live circuit is quiet after as many beats as lit cells lie on one way, and the
circuits remembered from before are forgotten as many beats later as the machine remembers.

* `Steady`: what beats and firing keep of a machine that was made for a circuit;
* `Faded`: how deep lit cells still lie in the circuit and in what is remembered, some beats after the last
  firing;
* `Driven.dies_out`: all further beats succeed, and those after so many report nothing.
-/

namespace PulseCircuit

open Circuit Evaluator Running

/-! ## Walks where nothing is stored -/

theorem Circuit.isQuiet_of_project {c d : Circuit} (hquiet : c.isQuiet = true) {validate : Bool}
    (hproject : c.project validate = .ok d) : d.isQuiet = true := by
  obtain ⟨kept, -, rfl⟩ := project_ok hproject
  refine isQuiet_iff.mpr fun id cell hcell => ?_
  rw [keepPulses_eq_mapCells, cell?_mapCells] at hcell
  obtain ⟨old, hold, rfl⟩ := Option.map_eq_some_iff.mp hcell
  split
  · exact isQuiet_iff.mp hquiet id old hold
  · rfl

namespace Evaluator

/-- No tick stores a pulse, and no peak that is remembered has one. -/
structure Silent (e : Evaluator) : Prop where
  quiet : e.Throughout fun c => c.isQuiet = true
  memo : ∀ key peak, e.memo.get? key = some (.done peak) → peak = .nothing

/-- Nothing has been gathered so far. -/
def Task.Empty : Task → Prop
  | .fold _ _ _ _ _ peak => peak = .nothing
  | _ => True

namespace Silent

variable {e : Evaluator}

theorem enter (h : Silent e) (key : MemoKey) : Silent (e.enter key) where
  quiet := h.quiet
  memo := by
    intro other peak hdone
    rw [get?_enter] at hdone
    split at hdone
    · cases hdone
    · exact h.memo other peak hdone

theorem leave (h : Silent e) {key : MemoKey} {depth : Nat} {outer : Option Nat} {answer : Except Fault Peak}
    (hanswer : ∀ peak, answer = .ok peak → peak = .nothing) :
    Silent (e.leave key depth outer answer.toOption) where
  quiet := h.quiet
  memo := by
    intro other peak hdone
    rw [get?_leave] at hdone
    split at hdone
    · split at hdone
      next found hfound _ =>
        cases hdone
        cases answer with
        | error fault => cases hfound
        | ok peak =>
          cases hfound
          exact hanswer _ rfl
      next => cases hdone
    · exact h.memo other peak hdone

/-- A cell of a quiet tick has nothing stored. -/
theorem ofPulse?_eq_nothing (h : Silent e) {tick : Int} {frame : Frame} {id : CellId} {cell : Cell}
    (hframe : e.timeline.frame? tick = some frame) (hcell : frame.circuit.cell id = .ok cell)
    (colour : Colour) : Peak.ofPulse? (cell.fire.get colour) [] = .nothing := by
  have hdark := isQuiet_iff.mp (h.quiet _ _ hframe) id cell (cell_ok_iff.mp hcell)
  rw [Fire.eq_none_of_dim hdark]
  cases colour <;> rfl

end Silent

/-- A walk where no pulse is stored finds none. -/
theorem Walk.silent {fuel : Nat} {task : Task} {e e' : Evaluator} {answer : Except Fault Peak}
    (h : Walk fuel task e answer e') (hsilent : Silent e) (hempty : task.Empty) :
    Silent e' ∧ ∀ peak, answer = .ok peak → peak = .nothing := by
  induction h with
  | reuse hdone =>
    refine ⟨⟨hsilent.quiet, hsilent.memo⟩, ?_⟩
    rintro peak ⟨⟩
    exact hsilent.memo _ _ hdone
  | descend _ _ ih =>
    obtain ⟨hbody, hanswer⟩ := ih (hsilent.enter _) trivial
    exact ⟨hbody.leave hanswer, hanswer⟩
  | stored hframe hcell =>
    refine ⟨⟨hsilent.quiet, hsilent.memo⟩, ?_⟩
    rintro peak ⟨⟩
    exact hsilent.ofPulse?_eq_nothing hframe hcell _
  | gather hframe hcell _ _ ih =>
    exact ih ⟨hsilent.quiet, hsilent.memo⟩ (hsilent.ofPulse?_eq_nothing hframe hcell _)
  | done =>
    refine ⟨hsilent, ?_⟩
    rintro peak ⟨⟩
    exact hempty
  | skip _ _ _ ih => exact ih hsilent hempty
  | broken _ _ _ _ ih => exact ⟨(ih hsilent trivial).1, by simp⟩
  | settle _ _ _ _ _ ih =>
    obtain ⟨hlook, hnext⟩ := ih hsilent trivial
    refine ⟨hlook, ?_⟩
    rintro peak ⟨⟩
    -- nothing comes over the wire, so what was gathered stays
    rw [hnext _ rfl]
    exact hempty
  | proceed _ _ _ _ _ _ ihlook ihrest =>
    obtain ⟨hlook, hnext⟩ := ihlook hsilent trivial
    refine ihrest hlook ?_
    rw [Task.Empty, hnext _ rfl]
    exact hempty
  | stay _ ih => exact ih hsilent trivial
  | known _ _ _ _ ih => exact ih hsilent trivial
  | imagine _ _ _ hcurrent hproject _ _ ih =>
    have hquiet := isQuiet_of_project (hsilent.quiet _ _ hcurrent) hproject
    exact ih ⟨hsilent.quiet.imagining hquiet _, hsilent.memo⟩ trivial
  | again | frameless | absent | deadEnd | adrift | stale =>
    refine ⟨⟨hsilent.quiet, hsilent.memo⟩, ?_⟩
    rintro peak ⟨⟩
    rfl
  | cut | lost | wireless | sourceless | unprojectable => exact ⟨hsilent, by simp⟩

end Evaluator

namespace Circuit

theorem SameLayout.placed {c d : Circuit} (h : c.SameLayout d) (hplaced : c.Placed) : d.Placed := by
  intro new hnew
  obtain ⟨id, hcell⟩ := mem_cells_iff_exists.mp hnew
  have hsame := h.cell id
  rw [hcell, Option.map_some] at hsame
  obtain ⟨old, hold, houtline⟩ := Option.map_eq_some_iff.mp hsame.symm
  have hposition : new.position = old.position := (congrArg Cell.position houtline).symm
  rw [hposition]
  exact hplaced old (mem_cells_iff_exists.mpr ⟨id, hold⟩)

end Circuit

/-- The beat reports no cell that fires, no operation and no pong. -/
def BeatReport.Silent (report : BeatReport) : Prop :=
  report.firing = [] ∧ report.operations = [] ∧ report.pongs = []

namespace Machine

variable {c : Circuit} {limit : Nat} {m m' : Machine} {gathered : Harvest}

/-! ## Machines that are fired and run -/

/-- The machines that come from one that was made for a circuit and remembers so many earlier ones, by firing
cells and by running beats. -/
inductive Driven (validate : Bool) (c : Circuit) (limit : Nat) : Machine → Prop where
  | start : Driven validate c limit ((ofCircuit validate c).setHistoryLimit limit)
  | fire {m : Machine} (h : Driven validate c limit m) (id : CellId) (colour : Colour) :
    Driven validate c limit ((Machine.fire id colour).final m)
  | beat {m : Machine} (h : Driven validate c limit m) : Driven validate c limit (Machine.beat.final m)

/-- The circuit and all that is remembered have one layout, and no more is remembered than is allowed. -/
structure Steady (c : Circuit) (limit : Nat) (m : Machine) : Prop where
  sound : m.Sound
  layout : ∀ d ∈ m.circuit :: m.history, c.SameLayout d
  capacity : m.historyLimit = limit
  length : m.history.length ≤ limit

namespace Steady

theorem start (hc : c.Sound) (validate : Bool) (limit : Nat) :
    Steady c limit ((ofCircuit validate c).setHistoryLimit limit) where
  sound := ⟨hc, by simp [setHistoryLimit, ofCircuit]⟩
  layout := by simp [setHistoryLimit, ofCircuit, SameLayout.refl]
  capacity := rfl
  length := by simp [setHistoryLimit, ofCircuit]

theorem placed (h : Steady c limit m) (hplaced : c.Placed) : ∀ d ∈ m.circuit :: m.history, d.Placed :=
  fun d hd => (h.layout d hd).placed hplaced

/-- Nothing is forgotten: what is remembered has the cells the circuit has. -/
theorem not_forgotten (h : Steady c limit m) (id : CellId) : ¬ m.Forgotten id := by
  rintro ⟨habsent, snapshot, w, wire, hhead, hwire, rfl, -⟩
  have hmem := List.mem_of_mem_head? hhead
  have hsnapshot := h.sound.history snapshot hmem
  obtain ⟨source, hsource⟩ := hsnapshot.linked.source_live (wire_ok_iff.mp hwire)
  have hkeys : snapshot.live.keys = m.circuit.live.keys :=
    (h.layout snapshot (List.mem_cons_of_mem _ hmem)).keys.trans
      (h.layout m.circuit List.mem_cons_self).keys.symm
  have hkey := mem_keys_of_cell? hsource
  rw [hkeys] at hkey
  obtain ⟨cell, hcell⟩ := h.sound.circuit.owned.live_of_mem_keys (hsnapshot.owned.noun_eq_cell hsource) hkey
  exact habsent cell (cell_ok_iff.mpr hcell)

theorem fire (h : Steady c limit m) (id : CellId) (colour : Colour) :
    Steady c limit ((Machine.fire id colour).final m) := by
  have hedit : Steady c limit ((Machine.editing (Circuit.fireCell m.validate id colour)).final m) := by
    refine ⟨h.sound.editing (h.sound.circuit.setPulse m.validate id colour (some .raw)), ?_, ?_, ?_⟩
    · rw [final_editing, Circuit.fireCell, Circuit.fire, setPulse, Edit.final_onCell_validated]
      intro d hd
      rcases List.mem_cons.mp hd with rfl | hd
      · exact (h.layout _ List.mem_cons_self).trans (.changeCell m.circuit id fun _ => rfl)
      · exact h.layout d (List.mem_cons_of_mem _ hd)
    · rw [final_editing]
      exact h.capacity
    · rw [final_editing]
      exact h.length
  exact final_bind hedit fun _ _ _ hd =>
    ⟨⟨hd.sound.circuit, hd.sound.history⟩, hd.layout, hd.capacity, hd.length⟩

theorem movedOn (h : Steady c limit m) (hharvest : m.Harvested gathered) {projected : Circuit}
    (hproject : (m.changed gathered).project m.validate = .ok projected)
    (hsound : (m.movedOn gathered projected).Sound) : Steady c limit (m.movedOn gathered projected) where
  sound := hsound
  layout := by
    have hchanged := (h.layout _ List.mem_cons_self).trans (hharvest.sameLayout_changed h.sound)
    intro d hd
    rcases List.mem_cons.mp hd with rfl | hd
    · exact hchanged.trans (.of_project hproject)
    · rcases List.mem_cons.mp (List.mem_of_mem_take hd) with rfl | hd
      · exact hchanged
      · exact h.layout d (List.mem_cons_of_mem _ hd)
  capacity := h.capacity
  length := by
    rw [← h.capacity]
    exact List.length_take_le _ _

/-- Every beat succeeds. -/
theorem beat_ok (h : Steady c limit m) (hplaced : c.Placed) :
    ∃ gathered stats projected, m.Harvested gathered ∧
      (m.changed gathered).project m.validate = .ok projected ∧
      Machine.beat m = .ok (m.report gathered stats) (m.movedOn gathered projected) ∧
      Steady c limit (m.movedOn gathered projected) := by
  rcases h.sound.beat_cases (h.placed hplaced) with ⟨report, m', hbeat⟩ | ⟨x, m', hforgotten, -⟩
  · obtain ⟨gathered, stats, projected, hharvest, hproject, rfl, rfl⟩ := h.sound.beat_cases_of_ok hbeat
    have hsound := h.sound.beat
    rw [final_of_ok hbeat] at hsound
    exact ⟨gathered, stats, projected, hharvest, hproject, hbeat, h.movedOn hharvest hproject hsound⟩
  · exact absurd hforgotten (h.not_forgotten x)

end Steady

theorem Driven.steady {validate : Bool} (hc : c.Sound) (hplaced : c.Placed) (h : Driven validate c limit m) :
    Steady c limit m := by
  induction h with
  | start => exact .start hc validate limit
  | fire _ id colour ih => exact ih.fire id colour
  | beat _ ih =>
    obtain ⟨gathered, stats, projected, -, -, hbeat, hsteady⟩ := ih.beat_ok hplaced
    rw [final_of_ok hbeat]
    exact hsteady

/-! ## Fading -/

/-- Some beats after the last firing, when lit cells lay `deep` on a way up: each beat since then has taken one
off, and what is remembered from `back` beats ago shows them as they lay then. -/
def Faded (deep beats : Nat) (m : Machine) : Prop :=
  ∀ back d, (m.circuit :: m.history)[back]? = some d → back ≤ beats → d.litDepth ≤ deep - (beats - back)

theorem faded_start (m : Machine) : Faded m.circuit.litDepth 0 m := by
  intro back d hd hback
  obtain rfl := Nat.le_zero.mp hback
  cases hd
  exact Nat.le_refl _

/-- What is carried out in a beat lights no cell. -/
theorem Harvested.litDepth_changed_le (hharvest : m.Harvested gathered) (h : m.Sound) :
    (m.changed gathered).litDepth ≤ m.circuit.litDepth := by
  have hlayout := hharvest.sameLayout_changed h
  have hsize : (m.changed gathered).size = m.circuit.size := by
    have hkeys := congrArg List.length hlayout.keys
    rwa [Table.keys, Table.keys, List.length_map, List.length_map] at hkeys
  exact litDepth_le_of_litAt (h.linked_changed gathered).keyed h.circuit.linked.keyed hsize
    (litAt_congr hlayout.parentOf h.fire_changed)

theorem Faded.movedOn {deep beats : Nat} (hfaded : Faded deep beats m) (h : m.Sound)
    (hharvest : m.Harvested gathered) {projected : Circuit}
    (hproject : (m.changed gathered).project m.validate = .ok projected) :
    Faded deep (beats + 1) (m.movedOn gathered projected) := by
  intro back d hd hback
  have hnow := hfaded 0 m.circuit rfl (Nat.zero_le _)
  have hchanged := hharvest.litDepth_changed_le h
  have hnext := (h.linked_changed gathered).rooted.litDepth_project hproject
  cases back with
  | zero =>
    cases hd
    show projected.litDepth ≤ _
    omega
  | succ back =>
    have hrest : (m.changed gathered :: m.history)[back]? = some d := by
      have htaken : ((m.changed gathered :: m.history).take m.historyLimit)[back]? = some d := hd
      rw [List.getElem?_take] at htaken
      split at htaken
      · exact htaken
      · cases htaken
    cases back with
    | zero =>
      cases hrest
      omega
    | succ back =>
      have hthen := hfaded (back + 1) d hrest (by omega)
      omega

/-- Late enough no lit cell is left in all that is remembered. -/
theorem Steady.quiet {deep beats : Nat} (h : Steady c limit m) (hfaded : Faded deep beats m)
    (hlate : deep + limit ≤ beats) : ∀ d ∈ m.circuit :: m.history, d.isQuiet = true := by
  intro d hd
  obtain ⟨back, hback⟩ := List.mem_iff_getElem?.mp hd
  have hlt := (List.getElem?_eq_some_iff.mp hback).1
  have hlength := h.length
  rw [List.length_cons] at hlt
  have hdeep := hfaded back d hback (by omega)
  have hsound : d.Sound := by
    rcases List.mem_cons.mp hd with rfl | hd
    · exact h.sound.circuit
    · exact h.sound.history d hd
  exact hsound.linked.rooted.isQuiet_iff_litDepth.mpr (by omega)

theorem Finds.eq_nothing (hquiet : ∀ d ∈ m.circuit :: m.history, d.isQuiet = true) {id : CellId}
    {colour : Colour} {peak : Peak} (hfinds : m.Finds id colour peak) : peak = .nothing := by
  have hsilent : Silent m.evaluator := by
    refine ⟨throughout_ofHistory (fun d hd => ?_) m.validate, ?_⟩
    · rw [List.append_nil] at hd
      exact hquiet d hd
    · intro key peak hdone
      cases hdone
  obtain ⟨-, before, -, hreply⟩ := exists_of_mem_answered hfinds
  have hbefore : Silent (m.evaluator.asked before) :=
    asked_invariant (fun hwalk h => (hwalk.silent h trivial).1) hsilent before
  exact ((walk_of_reply hreply).silent hbefore trivial).2 peak rfl

/-- A beat that finds no pulse reports nothing. -/
theorem Harvested.silent (hharvest : m.Harvested gathered) (h : m.Sound)
    (hnothing : ∀ id colour peak, m.Finds id colour peak → peak = .nothing) (stats : EvalStats) :
    (m.report gathered stats).Silent := by
  have hfiring : gathered.firing = [] := by
    refine List.eq_nil_iff_forall_not_mem.mpr fun id hid => ?_
    obtain ⟨colour, peak, hfinds, hsuccess⟩ := hharvest.mem_firing_iff.mp hid
    rw [hnothing id colour peak hfinds] at hsuccess
    cases hsuccess
  have hoperations : gathered.operations = [] := by
    refine List.eq_nil_iff_forall_not_mem.mpr fun operation hmem => ?_
    obtain ⟨id, colour, peak, hfinds, hsuccess, -⟩ := (hharvest.mem_operations_iff h).mp hmem
    rw [hnothing id colour peak hfinds] at hsuccess
    cases hsuccess
  have happlied : gathered.applied = .nothing := by
    rw [Harvest.applied, hoperations]
    rfl
  exact ⟨hfiring, congrArg Applied.operations happlied, congrArg Applied.pongs happlied⟩

/-- A run of beats succeeds, and the reports from some beat on are silent. -/
theorem Steady.run_ok {deep beats : Nat} (h : Steady c limit m) (hplaced : c.Placed)
    (hfaded : Faded deep beats m) (n : Nat) :
    ∃ reports m', Machine.run n m = .ok reports m' ∧ reports.length = n ∧
      ∀ k report, reports[k]? = some report → deep + limit ≤ beats + k → report.Silent := by
  induction n generalizing m beats with
  | zero => exact ⟨[], m, rfl, rfl, by simp⟩
  | succ n ih =>
    obtain ⟨gathered, stats, projected, hharvest, hproject, hbeat, hsteady⟩ := h.beat_ok hplaced
    obtain ⟨reports, m', hrun, hlength, hsilent⟩ := ih hsteady (hfaded.movedOn h.sound hharvest hproject)
    refine ⟨m.report gathered stats :: reports, m', ?_, by rw [List.length_cons, hlength], ?_⟩
    · rw [Machine.run, bind_of_ok hbeat, bind_of_ok hrun]
      rfl
    · intro k report hreport hlate
      cases k with
      | zero =>
        cases hreport
        have hquiet := h.quiet hfaded hlate
        exact hharvest.silent h.sound (fun _ _ _ hfinds => hfinds.eq_nothing hquiet) stats
      | succ k => exact hsilent k report hreport (by omega)

/-- However a machine was driven, all further beats succeed if no cell is fired any more. They report nothing
once there were as many as lit cells lay on one way up and circuits are remembered. -/
theorem Driven.dies_out {validate : Bool} (hc : c.Reachable) (hplaced : c.Placed)
    (h : Driven validate c limit m) (n : Nat) :
    ∃ reports m', Machine.run n m = .ok reports m' ∧ reports.length = n ∧
      ∀ k report, reports[k]? = some report → m.circuit.litDepth + limit ≤ k → report.Silent := by
  obtain ⟨reports, m', hrun, hlength, hsilent⟩ :=
    (h.steady hc.sound hplaced).run_ok hplaced (faded_start m) n
  refine ⟨reports, m', hrun, hlength, fun k report hreport hlate => hsilent k report hreport ?_⟩
  rwa [Nat.zero_add]

/-- A relay below another one that feeds itself a tick later and the upper one at once. -/
def echo : Circuit :=
  Circuit.initial.performAll true
    [.createCell .root .relay .origin, .createCell ⟨1⟩ .relay .origin,
      .createWire ⟨2⟩ ⟨2⟩ .any .future, .createWire ⟨2⟩ ⟨1⟩ .any .now]

/-- The machine for it, which remembers two circuits, once both relays are fired. -/
def echoing : Machine :=
  (Machine.fire ⟨2⟩ .red).final ((Machine.fire ⟨1⟩ .red).final ((ofCircuit true echo).setHistoryLimit 2))

/-- Lit cells lie two deep, and two circuits are remembered: the last of the four beats that fire reads the
lower pulse from two beats before. -/
theorem dies_out_echoing :
    ∃ reports m', Machine.run 6 echoing = .ok reports m' ∧ reports.length = 6 ∧
      (∀ k report, reports[k]? = some report → echoing.circuit.litDepth + 2 ≤ k → report.Silent) ∧
      reports.map (·.firing) = [[⟨1⟩, ⟨2⟩], [⟨1⟩, ⟨2⟩], [⟨1⟩, ⟨2⟩], [⟨1⟩, ⟨2⟩], [], []] ∧
      echoing.circuit.litDepth = 2 := by
  have hdriven : Driven true echo 2 echoing := (Driven.start.fire ⟨1⟩ .red).fire ⟨2⟩ .red
  obtain ⟨reports, m', hrun, hlength, hsilent⟩ :=
    hdriven.dies_out (Circuit.Reachable.performAll .initial true _) (by decide +kernel) 6
  have hfiring : (match Machine.run 6 echoing with
      | .ok reports _ => reports.map (·.firing)
      | .error .. => []) = [[⟨1⟩, ⟨2⟩], [⟨1⟩, ⟨2⟩], [⟨1⟩, ⟨2⟩], [⟨1⟩, ⟨2⟩], [], []] := by
    decide +kernel
  rw [hrun] at hfiring
  exact ⟨reports, m', hrun, hlength, hsilent, hfiring, by decide +kernel⟩

end Machine

end PulseCircuit
