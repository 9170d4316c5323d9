import PulseCircuit.Evaluator
import PulseCircuit.Proofs.Running

/-!
# Walks

A question to an evaluator runs through four kinds of tasks that call each other: ask for a peak, compute
one, fold the inputs that are left, look in the direction of a wire. `Walk` lists all steps such a run can
take, one rule for each way a task can go on. Properties of evaluations are proved by induction on it.

* `isWalk_peakNow`, `isWalk_peakAt`: every run is a walk;
* `Walk.unique`, `Walk.mono`: a walk has one outcome, and keeps it if it is allowed to go deeper;
* `Walk.keeps`: what closing and imagining ticks keeps is kept by every walk;
* `Evaluator.asked`: the evaluator after some queries.
-/

namespace PulseCircuit

namespace Evaluator

open Running

/-! ## Small steps -/

/-- A remembered peak was used. -/
def recalling (e : Evaluator) : Evaluator :=
  { e with stats := { e.stats with memoHits := e.stats.memoHits + 1 } }

/-- A pending key was asked for again. -/
def reentering (e : Evaluator) (depth : Nat) : Evaluator :=
  { e with reentered := outermost e.reentered (some depth) }

/-- A peak is computed for a cell that exists. -/
def counting (e : Evaluator) : Evaluator :=
  { e with stats := { e.stats with computed := e.stats.computed + 1 } }

/-- A tick shows nothing new and becomes a dead end. -/
def closing (e : Evaluator) (tick : Int) : Evaluator :=
  { e with
    deadEnds := tick :: e.deadEnds
    stats :=
      { e.stats with
        projections := e.stats.projections + 1
        fixedPoints := e.stats.fixedPoints + 1 } }

/-- A tick is imagined. -/
def imagining (e : Evaluator) (tick : Int) (c : Circuit) : Evaluator :=
  { e with
    timeline := e.timeline.imagine tick c
    stats :=
      { e.stats with
        projections := e.stats.projections + 1
        deepest := max e.stats.deepest tick.natAbs } }

/-- The next tick would show what the current tick shows, or the one behind it. -/
def isStale (e : Evaluator) (offset step : Int) (current projected : Circuit) : Bool :=
  projected.sameState current ||
    (e.timeline.frame? (offset - step)).any (projected.sameState ·.circuit)

/-! ## The rules -/

inductive Task where
  /-- The peak of a cell in a tick, remembered, pending or computed. -/
  | ask (offset : Int) (id : CellId) (colour : Colour)
  /-- The peak of a cell in a tick, computed. -/
  | compute (offset : Int) (id : CellId) (colour : Colour)
  /-- The inputs of a cell that are still to be folded into a peak. -/
  | fold (c : Circuit) (offset : Int) (target : Cell) (colour : Colour) (inputs : List WireId)
      (peak : Peak)
  /-- The peak of a cell at a timing relative to a tick. -/
  | look (offset : Int) (id : CellId) (colour : Colour) (timing : Timing)

/-- `Walk fuel task e answer e'`: the task, begun in `e` and allowed to go `fuel` cells deep, ends in `e'`
with the answer. -/
inductive Walk : Nat → Task → Evaluator → Except Fault Peak → Evaluator → Prop where
  | cut {e offset id colour} : Walk 0 (.ask offset id colour) e (.error (.endless id)) e
  | reuse {fuel e offset id colour peak}
      (hdone : e.memo.get? ⟨offset, id, colour⟩ = some (.done peak)) :
      Walk (fuel + 1) (.ask offset id colour) e (.ok peak) e.recalling
  | again {fuel e offset id colour depth}
      (hpending : e.memo.get? ⟨offset, id, colour⟩ = some (.pending depth)) :
      Walk (fuel + 1) (.ask offset id colour) e (.ok .nothing) (e.reentering depth)
  | descend {fuel e e' offset id colour answer}
      (hnew : e.memo.get? ⟨offset, id, colour⟩ = none)
      (hbody : Walk fuel (.compute offset id colour) (e.enter ⟨offset, id, colour⟩) answer e') :
      Walk (fuel + 1) (.ask offset id colour) e answer
        (e'.leave ⟨offset, id, colour⟩ e.depth e.reentered answer.toOption)
  | frameless {fuel e offset id colour} (hframe : e.timeline.frame? offset = none) :
      Walk fuel (.compute offset id colour) e (.ok .nothing) e
  | absent {fuel e offset id colour frame missing}
      (hframe : e.timeline.frame? offset = some frame)
      (hcell : frame.circuit.cell id = .error (.notFound missing)) (hoffset : offset ≠ 0) :
      Walk fuel (.compute offset id colour) e (.ok .nothing) e
  | lost {fuel e offset id colour frame fault}
      (hframe : e.timeline.frame? offset = some frame)
      (hcell : frame.circuit.cell id = .error fault)
      (hhere : offset = 0 ∨ ∀ missing, fault ≠ .notFound missing) :
      Walk fuel (.compute offset id colour) e (.error fault) e
  | stored {fuel e offset id colour frame target}
      (hframe : e.timeline.frame? offset = some frame)
      (hcell : frame.circuit.cell id = .ok target)
      (hfinal : (Peak.ofPulse? (target.fire.get colour) []).isFinal = true) :
      Walk fuel (.compute offset id colour) e (.ok (.ofPulse? (target.fire.get colour) []))
        e.counting
  | gather {fuel e e' offset id colour frame target answer}
      (hframe : e.timeline.frame? offset = some frame)
      (hcell : frame.circuit.cell id = .ok target)
      (hfinal : (Peak.ofPulse? (target.fire.get colour) []).isFinal = false)
      (hfold : Walk fuel (.fold frame.circuit offset target colour target.inputs
        (.ofPulse? (target.fire.get colour) [])) e.counting answer e') :
      Walk fuel (.compute offset id colour) e answer e'
  | done {fuel e c offset target colour peak} :
      Walk fuel (.fold c offset target colour [] peak) e (.ok peak) e
  | wireless {fuel e c offset target colour input inputs peak fault}
      (hwire : c.wire input = .error fault) :
      Walk fuel (.fold c offset target colour (input :: inputs) peak) e (.error fault) e
  | skip {fuel e e' c offset target colour input inputs peak wire answer}
      (hwire : c.wire input = .ok wire) (hadmits : wire.colour.admits colour = false)
      (hrest : Walk fuel (.fold c offset target colour inputs peak) e answer e') :
      Walk fuel (.fold c offset target colour (input :: inputs) peak) e answer e'
  | sourceless {fuel e c offset target colour input inputs peak wire fault}
      (hwire : c.wire input = .ok wire) (hadmits : wire.colour.admits colour = true)
      (hsource : c.cell wire.source = .error fault) :
      Walk fuel (.fold c offset target colour (input :: inputs) peak) e (.error fault) e
  | broken {fuel e e' c offset target colour input inputs peak wire source fault}
      (hwire : c.wire input = .ok wire) (hadmits : wire.colour.admits colour = true)
      (hsource : c.cell wire.source = .ok source)
      (hlook : Walk fuel (.look offset source.id colour wire.timing.flip) e (.error fault) e') :
      Walk fuel (.fold c offset target colour (input :: inputs) peak) e (.error fault) e'
  | settle {fuel e e' c offset target colour input inputs peak wire source next}
      (hwire : c.wire input = .ok wire) (hadmits : wire.colour.admits colour = true)
      (hsource : c.cell wire.source = .ok source)
      (hlook : Walk fuel (.look offset source.id colour wire.timing.flip) e (.ok next) e')
      (hfinal : (peak.fold next ⟨source, target, wire⟩).isFinal = true) :
      Walk fuel (.fold c offset target colour (input :: inputs) peak) e
        (.ok (peak.fold next ⟨source, target, wire⟩)) e'
  | proceed {fuel e e' e'' c offset target colour input inputs peak wire source next answer}
      (hwire : c.wire input = .ok wire) (hadmits : wire.colour.admits colour = true)
      (hsource : c.cell wire.source = .ok source)
      (hlook : Walk fuel (.look offset source.id colour wire.timing.flip) e (.ok next) e')
      (hfinal : (peak.fold next ⟨source, target, wire⟩).isFinal = false)
      (hrest : Walk fuel (.fold c offset target colour inputs
        (peak.fold next ⟨source, target, wire⟩)) e' answer e'') :
      Walk fuel (.fold c offset target colour (input :: inputs) peak) e answer e''
  | stay {fuel e e' offset id colour answer}
      (hask : Walk fuel (.ask offset id colour) e answer e') :
      Walk fuel (.look offset id colour .now) e answer e'
  | deadEnd {fuel e offset id colour timing} (htiming : timing ≠ .now)
      (hdead : offset + timing.step ∈ e.deadEnds) :
      Walk fuel (.look offset id colour timing) e (.ok .nothing) e
  | known {fuel e e' offset id colour timing frame answer} (htiming : timing ≠ .now)
      (hdead : offset + timing.step ∉ e.deadEnds)
      (hframe : e.timeline.frame? (offset + timing.step) = some frame)
      (hask : Walk fuel (.ask (offset + timing.step) id colour) e answer e') :
      Walk fuel (.look offset id colour timing) e answer e'
  | adrift {fuel e offset id colour timing} (htiming : timing ≠ .now)
      (hdead : offset + timing.step ∉ e.deadEnds)
      (hnew : e.timeline.frame? (offset + timing.step) = none)
      (hcurrent : e.timeline.frame? offset = none) :
      Walk fuel (.look offset id colour timing) e (.ok .nothing) e
  | unprojectable {fuel e offset id colour timing current fault} (htiming : timing ≠ .now)
      (hdead : offset + timing.step ∉ e.deadEnds)
      (hnew : e.timeline.frame? (offset + timing.step) = none)
      (hcurrent : e.timeline.frame? offset = some current)
      (hproject : current.circuit.project e.validate = .error fault) :
      Walk fuel (.look offset id colour timing) e (.error fault) e
  | stale {fuel e offset id colour timing current projected} (htiming : timing ≠ .now)
      (hdead : offset + timing.step ∉ e.deadEnds)
      (hnew : e.timeline.frame? (offset + timing.step) = none)
      (hcurrent : e.timeline.frame? offset = some current)
      (hproject : current.circuit.project e.validate = .ok projected)
      (hstale : e.isStale offset timing.step current.circuit projected = true) :
      Walk fuel (.look offset id colour timing) e (.ok .nothing) (e.closing (offset + timing.step))
  | imagine {fuel e e' offset id colour timing current projected answer} (htiming : timing ≠ .now)
      (hdead : offset + timing.step ∉ e.deadEnds)
      (hnew : e.timeline.frame? (offset + timing.step) = none)
      (hcurrent : e.timeline.frame? offset = some current)
      (hproject : current.circuit.project e.validate = .ok projected)
      (hfresh : e.isStale offset timing.step current.circuit projected = false)
      (hask : Walk fuel (.ask (offset + timing.step) id colour)
        (e.imagining (offset + timing.step) projected) answer e') :
      Walk fuel (.look offset id colour timing) e answer e'

/-! ## Runs are walks -/

/-- The run of a program, taken apart into the answer and the evaluator it leaves behind, is a walk. -/
def IsWalk (fuel : Nat) (task : Task) (program : Evaluation Peak) (e : Evaluator) : Prop :=
  Walk fuel task e (program.answer e) (program.final e)

theorem IsWalk.of_ok {fuel : Nat} {task : Task} {program : Evaluation Peak} {e d : Evaluator}
    {peak : Peak} (hrun : program e = .ok peak d) (h : Walk fuel task e (.ok peak) d) :
    IsWalk fuel task program e := by
  rw [IsWalk, Evaluation.answer, final_of_ok hrun, hrun]
  exact h

theorem IsWalk.of_error {fuel : Nat} {task : Task} {program : Evaluation Peak} {e d : Evaluator}
    {fault : Fault} (hrun : program e = .error fault d)
    (h : Walk fuel task e (.error fault) d) : IsWalk fuel task program e := by
  rw [IsWalk, Evaluation.answer, final_of_error hrun, hrun]
  exact h

/-- A run that goes on as another one is a walk if the other one is. -/
theorem IsWalk.of_run {fuel : Nat} {task task' : Task} {program program' : Evaluation Peak}
    {e d : Evaluator} (hrun : program e = program' d) (h : IsWalk fuel task' program' d)
    (hstep : ∀ {answer f}, Walk fuel task' d answer f → Walk fuel task e answer f) :
    IsWalk fuel task program e := by
  rw [IsWalk, Evaluation.answer, final_of_run hrun, hrun]
  exact hstep h

theorem given_ok {α : Type} {answer : Except Fault α} {a : α} (h : answer = .ok a) (e : Evaluator) :
    given answer e = .ok a e := by
  rw [h]
  rfl

theorem given_error {α : Type} {answer : Except Fault α} {fault : Fault} (h : answer = .error fault)
    (e : Evaluator) : (given answer : Evaluation α) e = .error fault e := by
  rw [h]
  rfl

theorem count_run (change : EvalStats → EvalStats) (e : Evaluator) :
    count change e = .ok () { e with stats := change e.stats } := rfl

theorem imagineNext_error {e : Evaluator} {offset step : Int} {current : Circuit} {fault : Fault}
    (h : current.project e.validate = .error fault) :
    imagineNext offset step current e = .error fault e := by
  rw [imagineNext, bind_of_ok (get_run e), bind_of_error (given_error h e)]

theorem imagineNext_ok {e : Evaluator} {current projected : Circuit}
    (h : current.project e.validate = .ok projected) (offset step : Int) :
    imagineNext offset step current e =
      if e.isStale offset step current projected then .ok false (e.closing (offset + step))
      else .ok true (e.imagining (offset + step) projected) := by
  rw [imagineNext, bind_of_ok (get_run e), bind_of_ok (given_ok h e), bind_of_ok (count_run ..),
    bind_of_ok (get_run _)]
  cases hstale : e.isStale offset step current projected with
  | true =>
    rw [isStale] at hstale
    simp only [hstale, if_true]
    rfl
  | false =>
    rw [isStale] at hstale
    simp only [hstale, if_false, Bool.false_eq_true]
    rfl

section Runs

variable {fuel : Nat} {ask : Ask}
  (hask : ∀ offset id colour e, IsWalk fuel (.ask offset id colour) (ask offset id colour) e)

include hask

theorem isWalk_directedPeak (offset : Int) (id : CellId) (colour : Colour) {timing : Timing}
    (htiming : timing ≠ .now) (e : Evaluator) :
    IsWalk fuel (.look offset id colour timing) (directedPeak ask offset id colour timing.step) e := by
  by_cases hdead : offset + timing.step ∈ e.deadEnds
  · refine IsWalk.of_ok (d := e) ?_ (.deadEnd htiming hdead)
    rw [directedPeak, bind_of_ok (get_run e), if_pos (by simpa using hdead)]
    rfl
  have hclosed : ¬ e.deadEnds.contains (offset + timing.step) = true := by simpa using hdead
  cases hnew : e.timeline.frame? (offset + timing.step) with
  | some frame =>
    refine IsWalk.of_run (d := e) ?_ (hask ..) (.known htiming hdead hnew)
    have hknown : e.timeline.contains (offset + timing.step) = true := by
      rw [Timeline.contains, Table.contains]
      exact Option.isSome_of_eq_some hnew
    rw [directedPeak, bind_of_ok (get_run e), if_neg hclosed, if_pos hknown]
  | none =>
  have hunknown : ¬ e.timeline.contains (offset + timing.step) = true := by
    rw [Timeline.contains, Table.contains]
    exact Bool.eq_false_iff.mp (Option.isSome_eq_false_iff.mpr (Option.isNone_iff_eq_none.mpr hnew))
  cases hcurrent : e.timeline.frame? offset with
  | none =>
    refine IsWalk.of_ok (d := e) ?_ (.adrift htiming hdead hnew hcurrent)
    rw [directedPeak, bind_of_ok (get_run e), if_neg hclosed, if_neg hunknown]
    simp only [hcurrent]
    rfl
  | some current =>
  cases hproject : current.circuit.project e.validate with
  | error fault =>
    refine IsWalk.of_error (d := e) ?_ (.unprojectable htiming hdead hnew hcurrent hproject)
    rw [directedPeak, bind_of_ok (get_run e), if_neg hclosed, if_neg hunknown]
    simp only [hcurrent]
    rw [bind_of_error (imagineNext_error hproject)]
  | ok projected =>
  have hnext := imagineNext_ok hproject offset timing.step
  cases hstale : e.isStale offset timing.step current.circuit projected with
  | true =>
    refine IsWalk.of_ok ?_ (.stale htiming hdead hnew hcurrent hproject hstale)
    rw [hstale, if_pos rfl] at hnext
    rw [directedPeak, bind_of_ok (get_run e), if_neg hclosed, if_neg hunknown]
    simp only [hcurrent]
    rw [bind_of_ok hnext]
    rfl
  | false =>
    refine IsWalk.of_run ?_ (hask ..) (.imagine htiming hdead hnew hcurrent hproject hstale)
    rw [hstale, if_neg (by simp)] at hnext
    rw [directedPeak, bind_of_ok (get_run e), if_neg hclosed, if_neg hunknown]
    simp only [hcurrent]
    rw [bind_of_ok hnext]
    rfl

theorem isWalk_peakAt (offset : Int) (id : CellId) (colour : Colour) (timing : Timing)
    (e : Evaluator) :
    IsWalk fuel (.look offset id colour timing) (peakAt ask offset id colour timing) e := by
  cases timing with
  | now => exact IsWalk.of_run rfl (hask ..) .stay
  | past => exact isWalk_directedPeak hask offset id colour (by decide) e
  | future => exact isWalk_directedPeak hask offset id colour (by decide) e

theorem isWalk_foldInputs (c : Circuit) (offset : Int) (target : Cell) (colour : Colour)
    (inputs : List WireId) (peak : Peak) (e : Evaluator) :
    IsWalk fuel (.fold c offset target colour inputs peak)
      (foldInputs ask c offset target colour inputs peak) e := by
  induction inputs generalizing peak e with
  | nil => exact IsWalk.of_ok (d := e) rfl .done
  | cons input inputs ih =>
  cases hwire : c.wire input with
  | error fault =>
    refine IsWalk.of_error (d := e) ?_ (.wireless hwire)
    rw [foldInputs, bind_of_error (given_error hwire e)]
  | ok wire =>
  cases hadmits : wire.colour.admits colour with
  | false =>
    refine IsWalk.of_run (d := e) ?_ (ih peak e) (.skip hwire hadmits)
    rw [foldInputs, bind_of_ok (given_ok hwire e), if_neg (by simp [hadmits])]
  | true =>
  cases hsource : c.cell wire.source with
  | error fault =>
    refine IsWalk.of_error (d := e) ?_ (.sourceless hwire hadmits hsource)
    rw [foldInputs, bind_of_ok (given_ok hwire e), if_pos hadmits,
      bind_of_error (given_error hsource e)]
  | ok source =>
  have hlook := isWalk_peakAt hask offset source.id colour wire.timing.flip e
  -- what is left of the run once the wire and its source are found
  have hstart : ∀ {outcome}, (peakAt ask offset source.id colour wire.timing.flip >>= fun next =>
      if (peak.fold next ⟨source, target, wire⟩).isFinal then
        return peak.fold next ⟨source, target, wire⟩
      else foldInputs ask c offset target colour inputs (peak.fold next ⟨source, target, wire⟩)) e =
        outcome → foldInputs ask c offset target colour (input :: inputs) peak e = outcome := by
    rintro outcome rfl
    rw [foldInputs, bind_of_ok (given_ok hwire e), if_pos hadmits, bind_of_ok (given_ok hsource e)]
  cases hrun : peakAt ask offset source.id colour wire.timing.flip e with
  | error fault e' =>
    rw [IsWalk, Evaluation.answer, final_of_error hrun, hrun] at hlook
    exact IsWalk.of_error (hstart (bind_of_error hrun _)) (.broken hwire hadmits hsource hlook)
  | ok next e' =>
    rw [IsWalk, Evaluation.answer, final_of_ok hrun, hrun] at hlook
    cases hfinal : (peak.fold next ⟨source, target, wire⟩).isFinal with
    | true =>
      refine IsWalk.of_ok (hstart ?_) (.settle hwire hadmits hsource hlook hfinal)
      rw [bind_of_ok hrun, if_pos hfinal]
      rfl
    | false =>
      refine IsWalk.of_run (hstart ?_) (ih (peak.fold next ⟨source, target, wire⟩) e')
        (.proceed hwire hadmits hsource hlook hfinal)
      rw [bind_of_ok hrun, if_neg (by simp [hfinal])]

theorem isWalk_computeNow (offset : Int) (id : CellId) (colour : Colour) (e : Evaluator) :
    IsWalk fuel (.compute offset id colour) (computeNow ask offset id colour) e := by
  cases hframe : e.timeline.frame? offset with
  | none =>
    refine IsWalk.of_ok (d := e) ?_ (.frameless hframe)
    rw [computeNow, bind_of_ok (get_run e)]
    simp only [hframe]
    rfl
  | some frame =>
  cases hcell : frame.circuit.cell id with
  | error fault =>
    by_cases hhere : offset = 0 ∨ ∀ missing, fault ≠ .notFound missing
    · refine IsWalk.of_error (d := e) ?_ (.lost hframe hcell hhere)
      rw [computeNow, bind_of_ok (get_run e)]
      simp only [hframe, hcell]
      rcases hhere with hzero | hother
      · cases fault <;> simp only [hzero, if_true] <;> rfl
      · cases fault <;> first | rfl | exact absurd rfl (hother _)
    · -- away from the present a cell may be missing
      obtain ⟨hoffset, missing, hmissing⟩ : offset ≠ 0 ∧ ∃ missing, fault = .notFound missing := by
        simpa using hhere
      subst hmissing
      refine IsWalk.of_ok (d := e) ?_ (.absent hframe hcell hoffset)
      rw [computeNow, bind_of_ok (get_run e)]
      simp only [hframe, hcell, hoffset, if_false]
      rfl
  | ok target =>
  cases hfinal : (Peak.ofPulse? (target.fire.get colour) []).isFinal with
  | true =>
    refine IsWalk.of_ok (d := e.counting) ?_ (.stored hframe hcell hfinal)
    rw [computeNow, bind_of_ok (get_run e)]
    simp only [hframe, hcell]
    rw [bind_of_ok (count_run ..), if_pos hfinal]
    rfl
  | false =>
    refine IsWalk.of_run (d := e.counting) ?_ (isWalk_foldInputs hask ..)
      (.gather hframe hcell hfinal)
    rw [computeNow, bind_of_ok (get_run e)]
    simp only [hframe, hcell]
    rw [bind_of_ok (count_run ..), if_neg (by simp [hfinal])]
    rfl

end Runs

/-- Every run of the evaluator is a walk. -/
theorem isWalk_peakNow (fuel : Nat) (offset : Int) (id : CellId) (colour : Colour) (e : Evaluator) :
    IsWalk fuel (.ask offset id colour) (peakNow fuel offset id colour) e := by
  induction fuel generalizing offset id colour e with
  | zero => exact IsWalk.of_error (d := e) rfl .cut
  | succ fuel ih =>
  cases hmemo : e.memo.get? ⟨offset, id, colour⟩ with
  | some memo =>
    cases memo with
    | done peak =>
      refine IsWalk.of_ok (d := e.recalling) ?_ (.reuse hmemo)
      rw [peakNow, bind_of_ok (get_run e)]
      simp only [hmemo]
      rfl
    | pending depth =>
      refine IsWalk.of_ok (d := e.reentering depth) ?_ (.again hmemo)
      rw [peakNow, bind_of_ok (get_run e)]
      simp only [hmemo]
      rfl
  | none =>
    -- a new key: what `ih` says of asking one level deeper makes the computation a walk
    have hbody := isWalk_computeNow ih offset id colour (e.enter ⟨offset, id, colour⟩)
    have hstart : peakNow (fuel + 1) offset id colour e =
        computing ⟨offset, id, colour⟩ (computeNow (peakNow fuel) offset id colour) e := by
      rw [peakNow, bind_of_ok (get_run e)]
      simp only [hmemo]
    cases hrun : computeNow (peakNow fuel) offset id colour (e.enter ⟨offset, id, colour⟩) with
    | ok peak e' =>
      rw [IsWalk, Evaluation.answer, final_of_ok hrun, hrun] at hbody
      refine IsWalk.of_ok (hstart.trans ?_) (.descend hmemo hbody)
      simp only [computing, hrun]
      rfl
    | error fault e' =>
      rw [IsWalk, Evaluation.answer, final_of_error hrun, hrun] at hbody
      refine IsWalk.of_error (hstart.trans ?_) (.descend hmemo hbody)
      simp only [computing, hrun]
      rfl

/-! ## One outcome -/

/-- A walk has one outcome. -/
theorem Walk.unique {fuel : Nat} {task : Task} {e e' e'' : Evaluator}
    {answer other : Except Fault Peak} (h : Walk fuel task e answer e')
    (h' : Walk fuel task e other e'') : answer = other ∧ e' = e'' := by
  -- the premises of two rules for the same task exclude each other, or the rules are the same
  induction h generalizing other e'' <;> cases h' <;> grind

/-- A walk that is not cut off stays the same if it is allowed to go deeper. -/
theorem Walk.deeper {fuel : Nat} {task : Task} {e e' : Evaluator} {answer : Except Fault Peak}
    (h : Walk fuel task e answer e') (hend : ∀ id, answer ≠ .error (.endless id)) :
    Walk (fuel + 1) task e answer e' := by
  induction h with
  | cut => exact absurd rfl (hend _)
  | reuse hdone => exact .reuse hdone
  | again hpending => exact .again hpending
  | descend hnew _ ih => exact .descend hnew (ih hend)
  | frameless hframe => exact .frameless hframe
  | absent hframe hcell hoffset => exact .absent hframe hcell hoffset
  | lost hframe hcell hhere => exact .lost hframe hcell hhere
  | stored hframe hcell hfinal => exact .stored hframe hcell hfinal
  | gather hframe hcell hfinal _ ih => exact .gather hframe hcell hfinal (ih hend)
  | done => exact .done
  | wireless hwire => exact .wireless hwire
  | skip hwire hadmits _ ih => exact .skip hwire hadmits (ih hend)
  | sourceless hwire hadmits hsource => exact .sourceless hwire hadmits hsource
  | broken hwire hadmits hsource _ ih =>
    exact .broken hwire hadmits hsource (ih (by simpa using hend))
  | settle hwire hadmits hsource _ hfinal ih =>
    exact .settle hwire hadmits hsource (ih (by simp)) hfinal
  | proceed hwire hadmits hsource _ hfinal _ ihlook ihrest =>
    exact .proceed hwire hadmits hsource (ihlook (by simp)) hfinal (ihrest hend)
  | stay _ ih => exact .stay (ih hend)
  | deadEnd htiming hdead => exact .deadEnd htiming hdead
  | known htiming hdead hframe _ ih => exact .known htiming hdead hframe (ih hend)
  | adrift htiming hdead hnew hcurrent => exact .adrift htiming hdead hnew hcurrent
  | unprojectable htiming hdead hnew hcurrent hproject =>
    exact .unprojectable htiming hdead hnew hcurrent hproject
  | stale htiming hdead hnew hcurrent hproject hstale =>
    exact .stale htiming hdead hnew hcurrent hproject hstale
  | imagine htiming hdead hnew hcurrent hproject hfresh _ ih =>
    exact .imagine htiming hdead hnew hcurrent hproject hfresh (ih hend)

theorem Walk.mono {fuel more : Nat} {task : Task} {e e' : Evaluator} {answer : Except Fault Peak}
    (h : Walk fuel task e answer e') (hend : ∀ id, answer ≠ .error (.endless id))
    (hle : fuel ≤ more) : Walk more task e answer e' := by
  induction hle with
  | refl => exact h
  | step _ ih => exact ih.deeper hend

/-- Two runs that are the same walk have the same outcome. -/
theorem IsWalk.run_eq {fuel : Nat} {task : Task} {program other : Evaluation Peak} {e : Evaluator}
    (h : IsWalk fuel task program e) (h' : IsWalk fuel task other e) : program e = other e := by
  obtain ⟨hanswer, hfinal⟩ := Walk.unique h h'
  rw [Evaluation.answer, Evaluation.answer] at hanswer
  rw [EStateM.final, EStateM.final] at hfinal
  cases hrun : program e <;> cases hother : other e <;> simp_all

/-! ## What walks keep -/

/-- Two evaluators that have imagined and closed the same ticks. -/
structure SameTicks (e e' : Evaluator) : Prop where
  validate : e'.validate = e.validate
  timeline : e'.timeline = e.timeline
  deadEnds : e'.deadEnds = e.deadEnds
  projections : e'.stats.projections = e.stats.projections
  deepest : e'.stats.deepest = e.stats.deepest

theorem sameTicks_enter (e : Evaluator) (key : MemoKey) : SameTicks e (e.enter key) :=
  ⟨rfl, rfl, rfl, rfl, rfl⟩

theorem sameTicks_leave (e : Evaluator) (key : MemoKey) (depth : Nat) (outer : Option Nat)
    (peak : Option Peak) : SameTicks e (e.leave key depth outer peak) := ⟨rfl, rfl, rfl, rfl, rfl⟩

theorem sameTicks_recalling (e : Evaluator) : SameTicks e e.recalling := ⟨rfl, rfl, rfl, rfl, rfl⟩

theorem sameTicks_reentering (e : Evaluator) (depth : Nat) : SameTicks e (e.reentering depth) :=
  ⟨rfl, rfl, rfl, rfl, rfl⟩

theorem sameTicks_counting (e : Evaluator) : SameTicks e e.counting := ⟨rfl, rfl, rfl, rfl, rfl⟩

/-- The tick next to one that is known is neither known nor closed, and can be projected. -/
structure Projects (e : Evaluator) (offset : Int) (timing : Timing) (current : Frame)
    (projected : Circuit) : Prop where
  timing_ne : timing ≠ .now
  not_dead : offset + timing.step ∉ e.deadEnds
  new : e.timeline.frame? (offset + timing.step) = none
  known : e.timeline.frame? offset = some current
  project : current.circuit.project e.validate = .ok projected

/-- A property that depends on the ticks only and is kept where one of them is closed or imagined. -/
structure Kept (P : Evaluator → Prop) : Prop where
  same : ∀ {e e' : Evaluator}, SameTicks e e' → P e → P e'
  closing : ∀ {e : Evaluator} {offset : Int} {timing : Timing} {current : Frame} {projected : Circuit},
    Projects e offset timing current projected →
    e.isStale offset timing.step current.circuit projected = true → P e →
    P (e.closing (offset + timing.step))
  imagining : ∀ {e : Evaluator} {offset : Int} {timing : Timing} {current : Frame}
    {projected : Circuit}, Projects e offset timing current projected →
    e.isStale offset timing.step current.circuit projected = false → P e →
    P (e.imagining (offset + timing.step) projected)

/-- Every walk keeps what is kept where ticks are closed or imagined. -/
theorem Walk.keeps {P : Evaluator → Prop} (hkept : Kept P)
    {fuel : Nat} {task : Task} {e e' : Evaluator} {answer : Except Fault Peak}
    (h : Walk fuel task e answer e') (hstart : P e) : P e' := by
  induction h with
  | descend _ _ ih =>
    exact hkept.same (sameTicks_leave ..) (ih (hkept.same (sameTicks_enter ..) hstart))
  | gather _ _ _ _ ih => exact ih (hkept.same (sameTicks_counting _) hstart)
  | skip _ _ _ ih => exact ih hstart
  | broken _ _ _ _ ih => exact ih hstart
  | settle _ _ _ _ _ ih => exact ih hstart
  | proceed _ _ _ _ _ _ ihlook ihrest => exact ihrest (ihlook hstart)
  | stay _ ih => exact ih hstart
  | known _ _ _ _ ih => exact ih hstart
  | stale htiming hdead hnew hcurrent hproject hstale =>
    exact hkept.closing ⟨htiming, hdead, hnew, hcurrent, hproject⟩ hstale hstart
  | imagine htiming hdead hnew hcurrent hproject hfresh _ ih =>
    exact ih (hkept.imagining ⟨htiming, hdead, hnew, hcurrent, hproject⟩ hfresh hstart)
  | reuse => exact hkept.same (sameTicks_recalling _) hstart
  | again => exact hkept.same (sameTicks_reentering ..) hstart
  | stored => exact hkept.same (sameTicks_counting _) hstart
  | cut | frameless | absent | lost | done | wireless | sourceless | deadEnd | adrift
  | unprojectable => exact hstart

/-! ## Queries -/

/-- A question about a cell of the present. -/
structure Query where
  id : CellId
  colour : Colour
  timing : Timing
deriving DecidableEq, Repr

/-- The answer of an evaluator to a query. -/
def reply (e : Evaluator) (q : Query) : Except Fault Peak := (peak q.id q.colour q.timing).answer e

/-- The evaluator after a query, answered or failed. -/
def next (e : Evaluator) (q : Query) : Evaluator := (peak q.id q.colour q.timing).final e

/-- The evaluator after some queries, one after the other. -/
def asked (e : Evaluator) (queries : List Query) : Evaluator := queries.foldl next e

section Reply

variable {e : Evaluator} (q : Query)

/-- Without a present there is no cell to ask about. -/
theorem reply_of_frameless (hframe : e.timeline.frame? 0 = none) :
    e.next q = e ∧ e.reply q = .error (.notFound q.id) := by
  have hrun : peak q.id q.colour q.timing e = .error (.notFound q.id) e := by
    rw [peak, bind_of_ok (get_run e)]
    simp only [hframe]
    rfl
  refine ⟨final_of_error hrun, ?_⟩
  rw [reply, Evaluation.answer, hrun]

/-- A query about a cell that is not there fails and does nothing. -/
theorem reply_of_absent {present : Frame} {fault : Fault} (hframe : e.timeline.frame? 0 = some present)
    (hcell : present.circuit.cell q.id = .error fault) : e.next q = e ∧ e.reply q = .error fault := by
  have hrun : peak q.id q.colour q.timing e = .error fault e := by
    rw [peak, bind_of_ok (get_run e)]
    simp only [hframe]
    rw [bind_of_error (given_error hcell e)]
  refine ⟨final_of_error hrun, ?_⟩
  rw [reply, Evaluation.answer, hrun]

/-- A query about a live cell is a walk from the present. -/
theorem walk_of_live {present : Frame} {cell : Cell} (hframe : e.timeline.frame? 0 = some present)
    (hcell : present.circuit.cell q.id = .ok cell) :
    Walk e.depthBound (.look 0 q.id q.colour q.timing) e (e.reply q) (e.next q) := by
  have hrun : peak q.id q.colour q.timing e =
      peakAt (peakNow e.depthBound) 0 q.id q.colour q.timing e := by
    rw [peak, bind_of_ok (get_run e)]
    simp only [hframe]
    rw [bind_of_ok (given_ok hcell e)]
  rw [reply, next, Evaluation.answer, final_of_run hrun, hrun]
  exact isWalk_peakAt (isWalk_peakNow e.depthBound) 0 q.id q.colour q.timing e

theorem reply_cases (e : Evaluator) (q : Query) :
    (e.next q = e ∧
      ((e.timeline.frame? 0 = none ∧ e.reply q = .error (.notFound q.id)) ∨
        ∃ present fault, e.timeline.frame? 0 = some present ∧
          present.circuit.cell q.id = .error fault ∧ e.reply q = .error fault)) ∨
    (∃ present cell, e.timeline.frame? 0 = some present ∧ present.circuit.cell q.id = .ok cell ∧
      Walk e.depthBound (.look 0 q.id q.colour q.timing) e (e.reply q) (e.next q)) := by
  cases hframe : e.timeline.frame? 0 with
  | none =>
    obtain ⟨hsame, hreply⟩ := reply_of_frameless q hframe
    exact Or.inl ⟨hsame, Or.inl ⟨rfl, hreply⟩⟩
  | some present =>
  cases hcell : present.circuit.cell q.id with
  | error fault =>
    obtain ⟨hsame, hreply⟩ := reply_of_absent q hframe hcell
    exact Or.inl ⟨hsame, Or.inr ⟨present, fault, rfl, hcell, hreply⟩⟩
  | ok cell => exact Or.inr ⟨present, cell, rfl, hcell, walk_of_live q hframe hcell⟩

/-- A query that is answered is a walk. -/
theorem walk_of_reply {q : Query} {answer : Peak} (hreply : e.reply q = .ok answer) :
    Walk e.depthBound (.look 0 q.id q.colour q.timing) e (.ok answer) (e.next q) := by
  rcases e.reply_cases q with ⟨-, ⟨-, hfault⟩ | ⟨_, _, -, -, hfault⟩⟩ | ⟨_, _, -, -, hwalk⟩
  · cases hreply.symm.trans hfault
  · cases hreply.symm.trans hfault
  · rwa [hreply] at hwalk

end Reply

/-- What every walk keeps holds after any queries. -/
theorem asked_invariant {P : Evaluator → Prop}
    (hwalk : ∀ {fuel id colour timing e answer e'},
      Walk fuel (.look 0 id colour timing) e answer e' → P e → P e')
    {e : Evaluator} (h : P e) (queries : List Query) : P (e.asked queries) := by
  induction queries generalizing e with
  | nil => exact h
  | cons q queries ih =>
    refine ih (e := e.next q) ?_
    rcases e.reply_cases q with ⟨hsame, -⟩ | ⟨present, cell, -, -, hrun⟩
    · rw [hsame]
      exact h
    · exact hwalk hrun h

end Evaluator

end PulseCircuit
