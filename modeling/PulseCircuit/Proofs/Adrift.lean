import PulseCircuit.Proofs.Scenes

/-!
# Scenes without an end

A tick is told from the one next to it by comparing their circuits, and a position that is not a number equals
none. So where a circuit has one, no imagined tick shows the state of another, and nothing keeps a question
from going on for ever from tick to tick: one about a dark cell that feeds itself over a timed wire does.

* `Onward`: how an evaluator stands before such a question, in every tick it comes to;
* `Onward.walk`: the question is cut off at whatever depth is allowed;
* `Scene.endless_nowhere`: a scene may declare such a position, and is built.
-/

namespace PulseCircuit

open Circuit Evaluator Running

/-- The cell holds no pulse of the colour, and the first wire to it starts at itself in another tick. -/
structure Circuit.SelfFed (c : Circuit) (id : CellId) (colour : Colour) (timing : Timing) : Prop where
  timed : timing ≠ .now
  feeds : ∃ cell input rest wire, c.cell id = .ok cell ∧ cell.fire.get colour = none ∧
    cell.inputs = input :: rest ∧ c.wire input = .ok wire ∧ wire.source = id ∧ wire.timing = timing ∧
    wire.colour.admits colour = true

namespace Evaluator

variable {c d : Circuit} {e : Evaluator} {id : CellId} {colour : Colour} {timing : Timing}

/-- A checked circuit in which the cell feeds itself, and of which some position is not a number. -/
structure Unending (id : CellId) (colour : Colour) (timing : Timing) (c : Circuit) : Prop where
  checked : c.Checked
  fed : c.SelfFed id colour timing
  unplaced : ¬ c.Placed

theorem Unending.of_project (h : Unending id colour timing c) {validate : Bool}
    (hproject : c.project validate = .ok d) : Unending id colour timing d where
  checked := h.checked.of_project hproject
  fed := by
    refine ⟨h.fed.timed, ?_⟩
    obtain ⟨cell, input, rest, wire, hcell, hdark, hinputs, hwire, hends⟩ := h.fed.feeds
    obtain ⟨kept, -, rfl⟩ := Circuit.project_ok hproject
    rw [keepPulses_eq_mapCells]
    refine ⟨_, input, rest, wire, by rw [cell_mapCells, hcell]; rfl, ?_, ?_,
      by rw [wire_mapCells, hwire], hends⟩
    · dsimp only
      split
      · exact hdark
      · cases colour <;> rfl
    · dsimp only
      split <;> exact hinputs
  unplaced := fun hplaced => h.unplaced ((SameLayout.of_project hproject).symm.placed hplaced)

/-- No tick that is imagined next to another one of an unending circuit is stale. -/
theorem Unending.isStale_eq_false (h : Unending id colour timing d) (e : Evaluator) (offset step : Int)
    (current : Circuit) : e.isStale offset step current d = false := by
  rw [isStale, sameState_of_not_placed h.unplaced, Bool.false_or]
  cases e.timeline.frame? (offset - step) with
  | none => rfl
  | some behind => exact sameState_of_not_placed h.unplaced behind.circuit

/-- The evaluator knows the tick, and nothing that lies further on in the direction in which the wire is
walked. -/
structure Onward (id : CellId) (colour : Colour) (timing : Timing) (e : Evaluator) (offset : Int) :
    Prop where
  here : ∃ frame, e.timeline.frame? offset = some frame ∧ Unending id colour timing frame.circuit
  unknown : ∀ tick, 0 < timing.flip.step * (tick - offset) → e.timeline.frame? tick = none
  passable : ∀ tick, 0 < timing.flip.step * (tick - offset) → tick ∉ e.deadEnds
  unasked : ∀ tick, 0 ≤ timing.flip.step * (tick - offset) → e.memo.get? ⟨tick, id, colour⟩ = none

theorem flip_step_mul_sub (htimed : timing ≠ .now) (tick offset : Int) :
    timing.flip.step * (tick - (offset + timing.flip.step)) = timing.flip.step * (tick - offset) - 1 := by
  cases timing with
  | now => exact absurd rfl htimed
  | past =>
    simp only [Timing.flip, Timing.step]
    omega
  | future =>
    simp only [Timing.flip, Timing.step]
    omega

namespace Onward

variable {offset : Int}

/-- Once the cell is asked for and the next tick is imagined, the evaluator stands before the same question a
tick further on. -/
theorem next (h : Onward id colour timing e offset) (htimed : timing ≠ .now)
    (hd : Unending id colour timing d) :
    Onward id colour timing
      ((e.enter ⟨offset, id, colour⟩).counting.imagining (offset + timing.flip.step) d)
      (offset + timing.flip.step) where
  here := ⟨⟨.projected, d⟩, by rw [imagining, Timeline.frame?_imagine, if_pos rfl], hd⟩
  unknown := by
    intro tick htick
    have hne : tick ≠ offset + timing.flip.step := by
      rintro rfl
      simp at htick
    rw [flip_step_mul_sub htimed] at htick
    rw [imagining, Timeline.frame?_imagine, if_neg hne]
    exact h.unknown tick (by omega)
  passable := by
    intro tick htick
    rw [flip_step_mul_sub htimed] at htick
    exact h.passable tick (by omega)
  unasked := by
    intro tick htick
    rw [flip_step_mul_sub htimed] at htick
    have hne : (⟨tick, id, colour⟩ : MemoKey) ≠ ⟨offset, id, colour⟩ := by
      rintro ⟨⟩
      simp at htick
    refine Eq.trans ?_ (h.unasked tick (by omega))
    exact (get?_enter e ⟨offset, id, colour⟩ ⟨tick, id, colour⟩).trans (if_neg hne)

/-- However deep the walk may go, it is cut off. -/
theorem walk (h : Onward id colour timing e offset) (fuel : Nat) :
    ∃ e', Walk fuel (.ask offset id colour) e (.error (.endless id)) e' := by
  -- each turn of the loop takes up one level and ends before the same question, a tick further on
  induction fuel generalizing e offset with
  | zero => exact ⟨e, .cut⟩
  | succ fuel ih =>
    obtain ⟨frame, hframe, hunending⟩ := h.here
    obtain ⟨cell, input, rest, wire, hcell, hdark, hinputs, hwire, rfl, rfl, hadmits⟩ :=
      hunending.fed.feeds
    have htimed := hunending.fed.timed
    have hid : cell.id = wire.source := id_of_cell? hunending.checked.keyed (cell_ok_iff.mp hcell)
    obtain ⟨d, hproject⟩ := hunending.checked.project_ok e.validate
    have hd := hunending.of_project hproject
    obtain ⟨e', hrest⟩ := ih (h.next htimed hd)
    have hstep := flip_step_mul_sub htimed (offset + wire.timing.flip.step) offset
    rw [Int.sub_self, Int.mul_zero] at hstep
    have hlook : Walk fuel (.look offset cell.id colour wire.timing.flip)
        (e.enter ⟨offset, wire.source, colour⟩).counting (.error (.endless wire.source)) e' := by
      rw [hid]
      refine .imagine ?_ (h.passable _ (by omega)) (h.unknown _ (by omega)) hframe hproject
        (hd.isStale_eq_false ..) hrest
      cases htiming : wire.timing <;> simp_all [Timing.flip]
    have hnothing : Peak.ofPulse? (cell.fire.get colour) [] = .nothing := by
      rw [hdark]
      rfl
    have hfold : Walk fuel (.fold frame.circuit offset cell colour cell.inputs
        (.ofPulse? (cell.fire.get colour) [])) (e.enter ⟨offset, wire.source, colour⟩).counting
        (.error (.endless wire.source)) e' := by
      rw [hinputs]
      exact .broken hwire hadmits hcell hlook
    refine ⟨_, .descend (h.unasked offset (by simp)) (.gather hframe hcell ?_ hfold)⟩
    rw [hnothing]
    rfl

end Onward

/-- A question about the cell in a circuit with nothing recorded is cut off at whatever depth is allowed. -/
theorem Unending.attempt_eq (h : Unending id colour timing c) (validate : Bool) (fuel : Nat) :
    (ofHistory validate c [] []).attempt fuel ⟨id, colour, .now⟩ = .error (.endless id) := by
  have honward : Onward id colour timing (ofHistory validate c [] []) 0 := by
    refine ⟨⟨_, History.present_frame ⟨validate, c, [], []⟩, h⟩, fun tick htick => ?_, ?_, fun _ _ => rfl⟩
    · show (Timeline.ofHistory c [] []).frame? tick = none
      rw [Timeline.frame?_ofHistory, if_neg]
      rintro ⟨hlow, hhigh⟩
      obtain rfl : tick = 0 := by
        simp only [List.length_nil] at hlow hhigh
        omega
      simp at htick
    · intro tick _ hdead
      cases hdead
  obtain ⟨e', hwalk⟩ := honward.walk fuel
  have hasked : IsWalk fuel _ (peakAt (peakNow fuel) 0 id colour .now) (ofHistory validate c [] []) :=
    isWalk_peakAt (isWalk_peakNow fuel) 0 id colour .now _
  exact (Walk.unique hasked (.stay hwalk)).1

end Evaluator

namespace Scene

/-- A cell that lies nowhere and feeds itself a tick later. -/
def nowhere : String :=
  "[[cell]]\nname = \"a\"\nx = nan\n" ++
  "[[wire]]\nsource = \"a\"\ntarget = \"a\"\ntiming = \"past\"\n"

/-- What it is built into. -/
def adrift : Circuit :=
  initial.performAll true [.createCell .root .relay ⟨0 / 0, 0⟩, .createWire ⟨1⟩ ⟨1⟩ .any .past]

theorem unending_adrift : Unending ⟨1⟩ .red .past adrift where
  checked := (Reachable.performAll .initial true _).sound.linked.checked
  fed := ⟨by decide, ⟨_, ⟨-1⟩, [], ⟨⟨-1⟩, ⟨1⟩, ⟨1⟩, .any, .past⟩, rfl, rfl, rfl, rfl, rfl, rfl, rfl⟩⟩
  unplaced := by decide +kernel

/-- So there is a scene that is built and passes every check, and of which no beat comes to an end: the very
question whether its cell fires goes on at whatever depth. -/
theorem endless_nowhere :
    ∃ n, Scene.load true nowhere = .ok n ∧ n.circuit.checkAll = .ok () ∧
      (∃ cell, n.circuit.cell ⟨1⟩ = .ok cell) ∧
      (∀ fuel, (ofHistory true n.circuit [] []).attempt fuel ⟨⟨1⟩, .red, .now⟩ = .error (.endless ⟨1⟩)) ∧
      ∀ count, ∃ m', Machine.run (count + 1) (.ofCircuit true n.circuit) = .error (.endless ⟨1⟩) m' := by
  have hbuilt : (Scene.load true nowhere).toOption.map (·.circuit) = some adrift := by decide +kernel
  cases hload : Scene.load true nowhere with
  | error e =>
    rw [hload] at hbuilt
    cases hbuilt
  | ok n =>
  rw [hload] at hbuilt
  obtain ⟨c, names⟩ := n
  obtain rfl : c = adrift := Option.some.inj hbuilt
  refine ⟨_, rfl, unending_adrift.checked.checkAll_ok, ⟨_, rfl⟩, unending_adrift.attempt_eq true, ?_⟩
  intro count
  have hfault : Machine.beat.fault? (.ofCircuit true adrift) = some (.endless ⟨1⟩) := by decide +kernel
  obtain ⟨m', hbeat⟩ := exists_of_fault? hfault
  exact ⟨m', bind_of_error hbeat _⟩

end Scene

end PulseCircuit
