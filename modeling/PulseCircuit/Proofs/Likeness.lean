import PulseCircuit.Proofs.Bounds
import PulseCircuit.Proofs.Pending

/-!
# Walks that are alike

Two evaluators are asked one question about two histories that look alike. A `Likeness` says what that means:
which circuits, cells and peaks are alike, and whether time runs the other way round in the second history. If
it keeps its laws, whatever one evaluator does the other one does too, in the ticks that correspond.

* `Likeness.Lawful`: what look-ups, folds, projections and comparisons have to keep;
* `Echoes`: what a task comes to it comes to in each evaluator that is alike, with one lemma for each rule that
  goes deeper or imagines a tick;
* `Walk.alike`: so a walk has a like one in each evaluator that is alike;
* `Alike.reply`: evaluators that are alike give like replies, and are alike afterwards;
* `alike_ofHistory`: fresh evaluators are alike if their histories are.
-/

namespace PulseCircuit

/-- Two results that are related or fail with the same fault. -/
inductive Likewise {α β : Type} (related : α → β → Prop) : Except Fault α → Except Fault β → Prop where
  | ok {a : α} {b : β} (h : related a b) : Likewise related (.ok a) (.ok b)
  | error (fault : Fault) : Likewise related (.error fault) (.error fault)

theorem Likewise.eq {α : Type} {a b : Except Fault α} (h : Likewise (· = ·) a b) : a = b := by
  cases h with
  | ok h => rw [h]
  | error fault => rfl

theorem Likewise.of_ok {α β : Type} {related : α → β → Prop} {a : Except Fault α} {b : Except Fault β}
    {x : α} (h : Likewise related a b) (ha : a = .ok x) : ∃ y, b = .ok y ∧ related x y := by
  cases h with
  | ok h =>
    cases ha
    exact ⟨_, rfl, h⟩
  | error fault => cases ha

theorem Likewise.of_error {α β : Type} {related : α → β → Prop} {a : Except Fault α} {b : Except Fault β}
    {fault : Fault} (h : Likewise related a b) (ha : a = .error fault) : b = .error fault := by
  cases h with
  | ok h => cases ha
  | error fault =>
    cases ha
    rfl

/-! ## Likenesses -/

/-- How two histories look alike to questions in one colour. -/
structure Likeness where
  colour : Colour
  /-- The past of one history is the future of the other one. -/
  mirrored : Bool
  /-- The timings at which a walk looks. -/
  looks : Timing → Prop
  circuit : Circuit → Circuit → Prop
  cell : Cell → Cell → Prop
  peak : Peak → Peak → Prop

namespace Likeness

variable (l : Likeness)

/-- The tick that corresponds to a tick of the first history. -/
def tick (offset : Int) : Int := if l.mirrored then -offset else offset

def timing (timing : Timing) : Timing := if l.mirrored then timing.flip else timing

def wire (wire : Wire) : Wire := { wire with timing := l.timing wire.timing }

theorem tick_tick (offset : Int) : l.tick (l.tick offset) = offset := by
  unfold tick
  split <;> omega

theorem tick_zero : l.tick 0 = 0 := by
  unfold tick
  split <;> rfl

theorem tick_inj {offset other : Int} : l.tick offset = l.tick other ↔ offset = other := by
  unfold tick
  split <;> omega

theorem natAbs_tick (offset : Int) : (l.tick offset).natAbs = offset.natAbs := by
  unfold tick
  split <;> omega

theorem timing_now : l.timing .now = .now := by
  unfold timing
  split <;> rfl

theorem timing_ne_now {timing : Timing} (h : timing ≠ .now) : l.timing timing ≠ .now := by
  unfold Likeness.timing
  split
  · cases timing <;> simp_all [Timing.flip]
  · exact h

theorem timing_flip (timing : Timing) : l.timing timing.flip = (l.timing timing).flip := by
  unfold Likeness.timing
  split <;> rfl

theorem tick_add_step (offset : Int) (timing : Timing) :
    l.tick (offset + timing.step) = l.tick offset + (l.timing timing).step := by
  unfold tick Likeness.timing
  split
  · rw [Timing.step_flip]
    omega
  · rfl

theorem tick_sub_step (offset : Int) (timing : Timing) :
    l.tick (offset - timing.step) = l.tick offset - (l.timing timing).step := by
  unfold tick Likeness.timing
  split
  · rw [Timing.step_flip]
    omega
  · rfl

/-- Walks leave the present. Only those that do imagine and compare circuits. -/
def Leaves : Prop := ∃ timing, l.looks timing ∧ timing ≠ .now

/-- What a walk sees of two circuits that are alike is alike, and so is what it imagines and gathers. -/
structure Lawful (validate : Bool) : Prop where
  cells : ∀ {c d}, l.circuit c d → ∀ id, Likewise l.cell (c.cell id) (d.cell id)
  wires : ∀ {c d}, l.circuit c d → ∀ id,
    Likewise (fun wire other => other = l.wire wire) (c.wire id) (d.wire id)
  looks : ∀ {c d id wire}, l.circuit c d → c.wire id = .ok wire → wire.colour.admits l.colour = true →
    l.looks wire.timing.flip
  size : ∀ {c d}, l.circuit c d → d.size = c.size
  id : ∀ {cell other}, l.cell cell other → other.id = cell.id
  inputs : ∀ {cell other}, l.cell cell other → other.inputs = cell.inputs
  stored : ∀ {cell other}, l.cell cell other →
    l.peak (.ofPulse? (cell.fire.get l.colour) []) (.ofPulse? (other.fire.get l.colour) [])
  nothing : l.peak .nothing .nothing
  final : ∀ {peak other}, l.peak peak other → other.isFinal = peak.isFinal
  fold : ∀ {source source' target target' previous previous' next next'} wire, l.cell source source' →
    l.cell target target' → l.peak previous previous' → l.peak next next' →
    l.peak (previous.fold next ⟨source, target, wire⟩) (previous'.fold next' ⟨source', target', l.wire wire⟩)
  project : ∀ {c d}, l.Leaves → l.circuit c d → Likewise l.circuit (c.project validate) (d.project validate)
  sameState : ∀ {c c' d d'}, l.Leaves → l.circuit c d → l.circuit c' d' → d.sameState d' = c.sameState c'

/-- An input with its source, in the other circuit. -/
theorem Lawful.input {l : Likeness} {validate : Bool} (h : l.Lawful validate) {c d : Circuit}
    (hcircuit : l.circuit c d) {w : WireId} {wire : Wire} {source : Cell} (hwire : c.wire w = .ok wire)
    (hsource : c.cell wire.source = .ok source) :
    d.wire w = .ok (l.wire wire) ∧ ∃ source', d.cell (l.wire wire).source = .ok source' ∧ l.cell source source' := by
  obtain ⟨wire', hwire', rfl⟩ := (h.wires hcircuit _).of_ok hwire
  exact ⟨hwire', (h.cells hcircuit _).of_ok hsource⟩

end Likeness

namespace Evaluator

/-- A peak is pending under the same depth, or it is remembered and alike. -/
inductive Memo.Alike (l : Likeness) : Memo → Memo → Prop where
  | pending (depth : Nat) : Alike l (.pending depth) (.pending depth)
  | done {peak other : Peak} (h : l.peak peak other) : Alike l (.done peak) (.done other)

def Frame.Alike (l : Likeness) (frame other : Frame) : Prop := l.circuit frame.circuit other.circuit

/-- Two evaluators that have come equally far in the colour of the likeness. -/
structure Alike (l : Likeness) (e e' : Evaluator) : Prop where
  validate : e'.validate = e.validate
  frame : ∀ tick, Option.Rel (Frame.Alike l) (e.timeline.frame? tick) (e'.timeline.frame? (l.tick tick))
  memo : ∀ tick id, Option.Rel (Memo.Alike l) (e.memo.get? ⟨tick, id, l.colour⟩)
    (e'.memo.get? ⟨l.tick tick, id, l.colour⟩)
  depth : e'.depth = e.depth
  reentered : e'.reentered = e.reentered
  deadEnds : ∀ tick, l.tick tick ∈ e'.deadEnds ↔ tick ∈ e.deadEnds
  stats : e'.stats = e.stats

/-- The same task about circuits that are alike. -/
inductive Task.Alike (l : Likeness) : Task → Task → Prop where
  | ask (offset : Int) (id : CellId) :
    Alike l (.ask offset id l.colour) (.ask (l.tick offset) id l.colour)
  | compute (offset : Int) (id : CellId) :
    Alike l (.compute offset id l.colour) (.compute (l.tick offset) id l.colour)
  | fold {c d : Circuit} (offset : Int) {target target' : Cell} (inputs : List WireId) {peak peak' : Peak}
    (hcircuit : l.circuit c d) (htarget : l.cell target target') (hpeak : l.peak peak peak') :
    Alike l (.fold c offset target l.colour inputs peak) (.fold d (l.tick offset) target' l.colour inputs peak')
  | look (offset : Int) (id : CellId) {timing : Timing} (hlooks : l.looks timing) :
    Alike l (.look offset id l.colour timing) (.look (l.tick offset) id l.colour (l.timing timing))

/-! ## Steps of two evaluators -/

namespace Alike

variable {l : Likeness} {e e' : Evaluator}

theorem frame_none (h : Alike l e e') {tick : Int} (hframe : e.timeline.frame? tick = none) :
    e'.timeline.frame? (l.tick tick) = none := by
  have hrel := h.frame tick
  rw [hframe] at hrel
  generalize e'.timeline.frame? (l.tick tick) = frame at hrel ⊢
  cases hrel
  rfl

theorem frame_some (h : Alike l e e') {tick : Int} {frame : Frame}
    (hframe : e.timeline.frame? tick = some frame) :
    ∃ other, e'.timeline.frame? (l.tick tick) = some other ∧ l.circuit frame.circuit other.circuit := by
  have hrel := h.frame tick
  rw [hframe] at hrel
  generalize e'.timeline.frame? (l.tick tick) = other at hrel ⊢
  cases hrel with
  | some hcircuit => exact ⟨_, rfl, hcircuit⟩

theorem next_none (h : Alike l e e') {offset : Int} {timing : Timing}
    (hnew : e.timeline.frame? (offset + timing.step) = none) :
    e'.timeline.frame? (l.tick offset + (l.timing timing).step) = none := by
  rw [← l.tick_add_step]
  exact h.frame_none hnew

theorem next_not_dead (h : Alike l e e') {offset : Int} {timing : Timing}
    (hdead : offset + timing.step ∉ e.deadEnds) : l.tick offset + (l.timing timing).step ∉ e'.deadEnds := by
  rw [← l.tick_add_step, h.deadEnds]
  exact hdead

theorem project (h : Alike l e e') (hl : l.Lawful e.validate) (hleaves : l.Leaves) {c d : Circuit}
    (hcircuit : l.circuit c d) : Likewise l.circuit (c.project e.validate) (d.project e'.validate) := by
  rw [h.validate]
  exact hl.project hleaves hcircuit

theorem memo_none (h : Alike l e e') {tick : Int} {id : CellId}
    (hnew : e.memo.get? ⟨tick, id, l.colour⟩ = none) : e'.memo.get? ⟨l.tick tick, id, l.colour⟩ = none := by
  have hrel := h.memo tick id
  rw [hnew] at hrel
  generalize e'.memo.get? ⟨l.tick tick, id, l.colour⟩ = memo at hrel ⊢
  cases hrel
  rfl

theorem memo_pending (h : Alike l e e') {tick : Int} {id : CellId} {depth : Nat}
    (hpending : e.memo.get? ⟨tick, id, l.colour⟩ = some (.pending depth)) :
    e'.memo.get? ⟨l.tick tick, id, l.colour⟩ = some (.pending depth) := by
  have hrel := h.memo tick id
  rw [hpending] at hrel
  generalize e'.memo.get? ⟨l.tick tick, id, l.colour⟩ = memo at hrel ⊢
  rcases hrel with ⟨⟨⟩⟩ | -
  rfl

theorem memo_done (h : Alike l e e') {tick : Int} {id : CellId} {peak : Peak}
    (hdone : e.memo.get? ⟨tick, id, l.colour⟩ = some (.done peak)) :
    ∃ other, e'.memo.get? ⟨l.tick tick, id, l.colour⟩ = some (.done other) ∧ l.peak peak other := by
  have hrel := h.memo tick id
  rw [hdone] at hrel
  generalize e'.memo.get? ⟨l.tick tick, id, l.colour⟩ = memo at hrel ⊢
  rcases hrel with ⟨- | hpeak⟩ | -
  exact ⟨_, rfl, hpeak⟩

theorem recalling (h : Alike l e e') : Alike l e.recalling e'.recalling :=
  { h with stats := by rw [Evaluator.recalling, Evaluator.recalling, h.stats] }

theorem counting (h : Alike l e e') : Alike l e.counting e'.counting :=
  { h with stats := by rw [Evaluator.counting, Evaluator.counting, h.stats] }

theorem reentering (h : Alike l e e') (depth : Nat) : Alike l (e.reentering depth) (e'.reentering depth) :=
  { h with reentered := by rw [Evaluator.reentering, Evaluator.reentering, h.reentered] }

/-- Keys correspond as their ticks do. -/
theorem key_eq_iff (l : Likeness) {tick offset : Int} {id x : CellId} :
    (⟨l.tick tick, x, l.colour⟩ : MemoKey) = ⟨l.tick offset, id, l.colour⟩ ↔
      (⟨tick, x, l.colour⟩ : MemoKey) = ⟨offset, id, l.colour⟩ := by
  simp only [MemoKey.mk.injEq, l.tick_inj]

theorem enter (h : Alike l e e') (offset : Int) (id : CellId) :
    Alike l (e.enter ⟨offset, id, l.colour⟩) (e'.enter ⟨l.tick offset, id, l.colour⟩) where
  validate := h.validate
  frame := h.frame
  memo tick x := by
    rw [get?_enter, get?_enter, h.depth]
    simp only [key_eq_iff]
    split
    · exact .some (.pending _)
    · exact h.memo tick x
  depth := by rw [Evaluator.enter, Evaluator.enter, h.depth]
  reentered := rfl
  deadEnds := h.deadEnds
  stats := h.stats

theorem leave (h : Alike l e e') (offset : Int) (id : CellId) (depth : Nat) (outer : Option Nat)
    {answer answer' : Except Fault Peak} (hanswer : Likewise l.peak answer answer') :
    Alike l (e.leave ⟨offset, id, l.colour⟩ depth outer answer.toOption)
      (e'.leave ⟨l.tick offset, id, l.colour⟩ depth outer answer'.toOption) where
  validate := h.validate
  frame := h.frame
  memo tick x := by
    rw [get?_leave, get?_leave, h.reentered]
    simp only [key_eq_iff]
    split
    · cases hanswer with
      | ok hpeak =>
        cases taint depth e.reentered with
        | none => exact .some (.done hpeak)
        | some _ => exact .none
      | error _ => exact .none
    · exact h.memo tick x
  depth := congrArg (· - 1) h.depth
  reentered := congrArg (fun reentered => outermost outer (taint depth reentered)) h.reentered
  deadEnds := h.deadEnds
  stats := h.stats

theorem closing (h : Alike l e e') (offset : Int) (timing : Timing) :
    Alike l (e.closing (offset + timing.step)) (e'.closing (l.tick offset + (l.timing timing).step)) where
  validate := h.validate
  frame := h.frame
  memo := h.memo
  depth := h.depth
  reentered := h.reentered
  deadEnds other := by
    rw [← l.tick_add_step]
    simp only [Evaluator.closing, List.mem_cons, h.deadEnds, l.tick_inj]
  stats := by rw [Evaluator.closing, Evaluator.closing, h.stats]

theorem imagining (h : Alike l e e') (offset : Int) (timing : Timing) {c d : Circuit}
    (hcircuit : l.circuit c d) :
    Alike l (e.imagining (offset + timing.step) c)
      (e'.imagining (l.tick offset + (l.timing timing).step) d) := by
  rw [← l.tick_add_step]
  generalize offset + timing.step = tick
  refine { h with frame := fun other => ?_, stats := ?_ }
  · have hleft : (e.imagining tick c).timeline.frame? other =
        if other = tick then some ⟨.projected, c⟩ else e.timeline.frame? other := Table.get?_insert ..
    have hright : (e'.imagining (l.tick tick) d).timeline.frame? (l.tick other) =
        if l.tick other = l.tick tick then some ⟨.projected, d⟩
        else e'.timeline.frame? (l.tick other) := Table.get?_insert ..
    rw [hleft, hright]
    simp only [l.tick_inj]
    split
    · exact .some hcircuit
    · exact h.frame other
  · rw [Evaluator.imagining, Evaluator.imagining, h.stats, l.natAbs_tick]

/-- What shows nothing new to one evaluator shows nothing new to the other. -/
theorem isStale {validate : Bool} (h : Alike l e e') (hl : l.Lawful validate) (hleaves : l.Leaves)
    (offset : Int) (timing : Timing) {current current' projected projected' : Circuit}
    (hcurrent : l.circuit current current')
    (hprojected : l.circuit projected projected') :
    e'.isStale (l.tick offset) (l.timing timing).step current' projected' =
      e.isStale offset timing.step current projected := by
  rw [Evaluator.isStale, Evaluator.isStale, hl.sameState hleaves hprojected hcurrent, ← l.tick_sub_step]
  congr 1
  cases hbehind : e.timeline.frame? (offset - timing.step) with
  | none =>
    rw [h.frame_none hbehind]
    rfl
  | some behind =>
    obtain ⟨other, hother, hcircuit⟩ := h.frame_some hbehind
    rw [hother, Option.any_some, Option.any_some, hl.sameState hleaves hprojected hcircuit]

end Alike

/-! ## Walks -/

section Walks

variable {l : Likeness} {validate : Bool}

/-- What the task comes to it comes to in an evaluator that is alike: the answers are alike, and so are the
evaluators afterwards. -/
def Echoes (l : Likeness) (fuel : Nat) (task : Task) (e : Evaluator) (answer : Except Fault Peak)
    (f : Evaluator) : Prop :=
  ∀ ⦃task' e'⦄, l.Lawful e.validate → task.Alike l task' → Alike l e e' →
    ∃ answer' f', Walk fuel task' e' answer' f' ∧ Likewise l.peak answer answer' ∧ Alike l f f'

namespace Echoes

variable {fuel : Nat} {e f g : Evaluator} {offset : Int} {id : CellId} {colour : Colour} {timing : Timing}
  {answer : Except Fault Peak}

theorem descend (hnew : e.memo.get? ⟨offset, id, colour⟩ = none)
    (hbody : Echoes l fuel (.compute offset id colour) (e.enter ⟨offset, id, colour⟩) answer f) :
    Echoes l (fuel + 1) (.ask offset id colour) e answer
      (f.leave ⟨offset, id, colour⟩ e.depth e.reentered answer.toOption) := by
  intro task' e' hl htask he
  cases htask
  obtain ⟨answer', f', hwalk, hanswer, hf⟩ := hbody hl (.compute _ _) (he.enter _ _)
  refine ⟨answer', _, .descend (he.memo_none hnew) hwalk, hanswer, ?_⟩
  rw [he.depth, he.reentered]
  exact hf.leave _ _ _ _ hanswer

theorem stored {frame : Frame} {target : Cell} (hframe : e.timeline.frame? offset = some frame)
    (hcell : frame.circuit.cell id = .ok target)
    (hfinal : (Peak.ofPulse? (target.fire.get colour) []).isFinal = true) :
    Echoes l fuel (.compute offset id colour) e (.ok (.ofPulse? (target.fire.get colour) [])) e.counting := by
  intro task' e' hl htask he
  cases htask
  obtain ⟨frame', hframe', hcircuit⟩ := he.frame_some hframe
  obtain ⟨target', hcell', htarget⟩ := (hl.cells hcircuit _).of_ok hcell
  have hstored := hl.stored htarget
  rw [← hl.final hstored] at hfinal
  exact ⟨_, _, .stored hframe' hcell' hfinal, .ok hstored, he.counting⟩

theorem gather {frame : Frame} {target : Cell} (hframe : e.timeline.frame? offset = some frame)
    (hcell : frame.circuit.cell id = .ok target)
    (hfinal : (Peak.ofPulse? (target.fire.get colour) []).isFinal = false)
    (hfold : Echoes l fuel (.fold frame.circuit offset target colour target.inputs
      (.ofPulse? (target.fire.get colour) [])) e.counting answer f) :
    Echoes l fuel (.compute offset id colour) e answer f := by
  intro task' e' hl htask he
  cases htask
  obtain ⟨frame', hframe', hcircuit⟩ := he.frame_some hframe
  obtain ⟨target', hcell', htarget⟩ := (hl.cells hcircuit _).of_ok hcell
  have hstored := hl.stored htarget
  obtain ⟨answer', f', hwalk, hrest⟩ := hfold hl (.fold _ _ hcircuit htarget hstored) he.counting
  rw [← hl.final hstored] at hfinal
  rw [← hl.inputs htarget] at hwalk
  exact ⟨answer', f', .gather hframe' hcell' hfinal hwalk, hrest⟩

/-! ### Over the inputs -/

section Folding

variable {c d : Circuit} {target source source' : Cell} {input : WireId} {inputs : List WireId} {wire : Wire}
  {peak next : Peak}

/-- The look over a wire, in the other circuit. -/
theorem lookOver {e' : Evaluator} (hl : l.Lawful e.validate) (hcircuit : l.circuit c d)
    (hwire : c.wire input = .ok wire) (hadmits : wire.colour.admits l.colour = true)
    (halike : l.cell source source') (he : Alike l e e')
    (hlook : Echoes l fuel (.look offset source.id l.colour wire.timing.flip) e answer f) :
    ∃ answer' f', Walk fuel (.look (l.tick offset) source'.id l.colour (l.wire wire).timing.flip) e' answer' f' ∧
      Likewise l.peak answer answer' ∧ Alike l f f' := by
  obtain ⟨answer', f', hwalk, hend⟩ := hlook hl (.look _ _ (hl.looks hcircuit hwire hadmits)) he
  rw [l.timing_flip, ← hl.id halike] at hwalk
  exact ⟨answer', f', hwalk, hend⟩

theorem broken {fault : Fault} (hwire : c.wire input = .ok wire) (hadmits : wire.colour.admits colour = true)
    (hsource : c.cell wire.source = .ok source)
    (hlook : Echoes l fuel (.look offset source.id colour wire.timing.flip) e (.error fault) f) :
    Echoes l fuel (.fold c offset target colour (input :: inputs) peak) e (.error fault) f := by
  intro task' e' hl htask he
  cases htask with
  | fold _ _ hcircuit htarget hpeak =>
    obtain ⟨hwire', source', hsource', halike⟩ := hl.input hcircuit hwire hsource
    obtain ⟨answer', f', hwalk, hanswer, hf⟩ := hlook.lookOver hl hcircuit hwire hadmits halike he
    cases hanswer
    exact ⟨_, f', .broken hwire' hadmits hsource' hwalk, .error _, hf⟩

theorem settle (hwire : c.wire input = .ok wire) (hadmits : wire.colour.admits colour = true)
    (hsource : c.cell wire.source = .ok source)
    (hlook : Echoes l fuel (.look offset source.id colour wire.timing.flip) e (.ok next) f)
    (hfinal : (peak.fold next ⟨source, target, wire⟩).isFinal = true) :
    Echoes l fuel (.fold c offset target colour (input :: inputs) peak) e
      (.ok (peak.fold next ⟨source, target, wire⟩)) f := by
  intro task' e' hl htask he
  cases htask with
  | fold _ _ hcircuit htarget hpeak =>
    obtain ⟨hwire', source', hsource', halike⟩ := hl.input hcircuit hwire hsource
    obtain ⟨answer', f', hwalk, hanswer, hf⟩ := hlook.lookOver hl hcircuit hwire hadmits halike he
    cases hanswer with
    | ok hnext =>
      have hfolded := hl.fold wire halike htarget hpeak hnext
      rw [← hl.final hfolded] at hfinal
      exact ⟨_, f', .settle hwire' hadmits hsource' hwalk hfinal, .ok hfolded, hf⟩

theorem proceed (hwire : c.wire input = .ok wire) (hadmits : wire.colour.admits colour = true)
    (hsource : c.cell wire.source = .ok source)
    (hlook : Echoes l fuel (.look offset source.id colour wire.timing.flip) e (.ok next) f)
    (hfinal : (peak.fold next ⟨source, target, wire⟩).isFinal = false) (hrestored : Restored e f)
    (hrest : Echoes l fuel (.fold c offset target colour inputs (peak.fold next ⟨source, target, wire⟩)) f answer g) :
    Echoes l fuel (.fold c offset target colour (input :: inputs) peak) e answer g := by
  intro task' e' hl htask he
  cases htask with
  | fold _ _ hcircuit htarget hpeak =>
    obtain ⟨hwire', source', hsource', halike⟩ := hl.input hcircuit hwire hsource
    obtain ⟨first, f', hwalk, hfirst, hf⟩ := hlook.lookOver hl hcircuit hwire hadmits halike he
    cases hfirst with
    | ok hnext =>
      have hfolded := hl.fold wire halike htarget hpeak hnext
      rw [← hrestored.validate] at hl
      obtain ⟨answer', g', hwalk', hend⟩ := hrest hl (.fold _ _ hcircuit htarget hfolded) hf
      rw [← hl.final hfolded] at hfinal
      exact ⟨answer', g', .proceed hwire' hadmits hsource' hwalk hfinal hwalk', hend⟩

end Folding

/-! ### Into the next tick -/

section Imagining

variable {current : Frame} {projected : Circuit}

theorem known {frame : Frame} (htiming : timing ≠ .now) (hdead : offset + timing.step ∉ e.deadEnds)
    (hframe : e.timeline.frame? (offset + timing.step) = some frame)
    (hask : Echoes l fuel (.ask (offset + timing.step) id colour) e answer f) :
    Echoes l fuel (.look offset id colour timing) e answer f := by
  intro task' e' hl htask he
  cases htask with
  | look _ _ hlooks =>
    obtain ⟨frame', hframe', -⟩ := he.frame_some hframe
    obtain ⟨answer', f', hwalk, hend⟩ := hask hl (.ask _ _) he
    rw [l.tick_add_step] at hframe' hwalk
    exact ⟨answer', f', .known (l.timing_ne_now htiming) (he.next_not_dead hdead) hframe' hwalk, hend⟩

theorem unprojectable {fault : Fault} (htiming : timing ≠ .now) (hdead : offset + timing.step ∉ e.deadEnds)
    (hnew : e.timeline.frame? (offset + timing.step) = none)
    (hcurrent : e.timeline.frame? offset = some current)
    (hproject : current.circuit.project e.validate = .error fault) :
    Echoes l fuel (.look offset id colour timing) e (.error fault) e := by
  intro task' e' hl htask he
  cases htask with
  | look _ _ hlooks =>
    obtain ⟨current', hcurrent', hcircuit⟩ := he.frame_some hcurrent
    have hproject' := (he.project hl ⟨_, hlooks, htiming⟩ hcircuit).of_error hproject
    exact ⟨_, e', .unprojectable (l.timing_ne_now htiming) (he.next_not_dead hdead) (he.next_none hnew) hcurrent'
      hproject', .error _, he⟩

theorem stale (htiming : timing ≠ .now) (hdead : offset + timing.step ∉ e.deadEnds)
    (hnew : e.timeline.frame? (offset + timing.step) = none)
    (hcurrent : e.timeline.frame? offset = some current)
    (hproject : current.circuit.project e.validate = .ok projected)
    (hstale : e.isStale offset timing.step current.circuit projected = true) :
    Echoes l fuel (.look offset id colour timing) e (.ok .nothing) (e.closing (offset + timing.step)) := by
  intro task' e' hl htask he
  cases htask with
  | look _ _ hlooks =>
    obtain ⟨current', hcurrent', hcircuit⟩ := he.frame_some hcurrent
    obtain ⟨projected', hproject', hprojected⟩ := (he.project hl ⟨_, hlooks, htiming⟩ hcircuit).of_ok hproject
    rw [← he.isStale hl ⟨_, hlooks, htiming⟩ _ _ hcircuit hprojected] at hstale
    exact ⟨_, _, .stale (l.timing_ne_now htiming) (he.next_not_dead hdead) (he.next_none hnew) hcurrent' hproject'
      hstale, .ok hl.nothing, he.closing _ _⟩

theorem imagine (htiming : timing ≠ .now) (hdead : offset + timing.step ∉ e.deadEnds)
    (hnew : e.timeline.frame? (offset + timing.step) = none)
    (hcurrent : e.timeline.frame? offset = some current)
    (hproject : current.circuit.project e.validate = .ok projected)
    (hfresh : e.isStale offset timing.step current.circuit projected = false)
    (hask : Echoes l fuel (.ask (offset + timing.step) id colour) (e.imagining (offset + timing.step) projected)
      answer f) :
    Echoes l fuel (.look offset id colour timing) e answer f := by
  intro task' e' hl htask he
  cases htask with
  | look _ _ hlooks =>
    obtain ⟨current', hcurrent', hcircuit⟩ := he.frame_some hcurrent
    obtain ⟨projected', hproject', hprojected⟩ := (he.project hl ⟨_, hlooks, htiming⟩ hcircuit).of_ok hproject
    obtain ⟨answer', f', hwalk, hend⟩ := hask hl (.ask _ _) (he.imagining _ _ hprojected)
    rw [l.tick_add_step] at hwalk
    rw [← he.isStale hl ⟨_, hlooks, htiming⟩ _ _ hcircuit hprojected] at hfresh
    exact ⟨answer', f', .imagine (l.timing_ne_now htiming) (he.next_not_dead hdead) (he.next_none hnew) hcurrent'
      hproject' hfresh hwalk, hend⟩

end Imagining

end Echoes

/-- Whatever a walk does, an evaluator that is alike does too, and they are alike after it. -/
theorem Walk.alike {fuel : Nat} {task : Task} {e f : Evaluator} {answer : Except Fault Peak}
    (h : Walk fuel task e answer f) : Echoes l fuel task e answer f := by
  induction h with
  | cut =>
    rintro _ e' hl ⟨⟩ he
    exact ⟨_, e', .cut, .error _, he⟩
  | reuse hdone =>
    rintro _ e' hl ⟨⟩ he
    obtain ⟨other, hother, hpeak⟩ := he.memo_done hdone
    exact ⟨_, _, .reuse hother, .ok hpeak, he.recalling⟩
  | again hpending =>
    rintro _ e' hl ⟨⟩ he
    exact ⟨_, _, .again (he.memo_pending hpending), .ok hl.nothing, he.reentering _⟩
  | descend hnew _ ih => exact .descend hnew ih
  | frameless hframe =>
    rintro _ e' hl ⟨⟩ he
    exact ⟨_, e', .frameless (he.frame_none hframe), .ok hl.nothing, he⟩
  | absent hframe hcell hoffset =>
    rintro _ e' hl ⟨⟩ he
    obtain ⟨frame', hframe', hcircuit⟩ := he.frame_some hframe
    rw [Ne, ← l.tick_inj, l.tick_zero] at hoffset
    exact ⟨_, e', .absent hframe' ((hl.cells hcircuit _).of_error hcell) hoffset, .ok hl.nothing, he⟩
  | lost hframe hcell hhere =>
    rintro _ e' hl ⟨⟩ he
    obtain ⟨frame', hframe', hcircuit⟩ := he.frame_some hframe
    rw [← l.tick_inj, l.tick_zero] at hhere
    exact ⟨_, e', .lost hframe' ((hl.cells hcircuit _).of_error hcell) hhere, .error _, he⟩
  | stored hframe hcell hfinal => exact .stored hframe hcell hfinal
  | gather hframe hcell hfinal _ ih => exact .gather hframe hcell hfinal ih
  | done =>
    intro task' e' hl htask he
    cases htask with
    | fold _ _ hcircuit htarget hpeak => exact ⟨_, e', .done, .ok hpeak, he⟩
  | wireless hwire =>
    intro task' e' hl htask he
    cases htask with
    | fold _ _ hcircuit htarget hpeak =>
      exact ⟨_, e', .wireless ((hl.wires hcircuit _).of_error hwire), .error _, he⟩
  | skip hwire hadmits _ ih =>
    intro task' e' hl htask he
    cases htask with
    | fold _ _ hcircuit htarget hpeak =>
      obtain ⟨wire', hwire', rfl⟩ := (hl.wires hcircuit _).of_ok hwire
      obtain ⟨answer', f', hrest, hend⟩ := ih hl (.fold _ _ hcircuit htarget hpeak) he
      exact ⟨answer', f', .skip hwire' hadmits hrest, hend⟩
  | sourceless hwire hadmits hsource =>
    intro task' e' hl htask he
    cases htask with
    | fold _ _ hcircuit htarget hpeak =>
      obtain ⟨wire', hwire', rfl⟩ := (hl.wires hcircuit _).of_ok hwire
      exact ⟨_, e', .sourceless hwire' hadmits ((hl.cells hcircuit _).of_error hsource), .error _, he⟩
  | broken hwire hadmits hsource _ ih => exact .broken hwire hadmits hsource ih
  | settle hwire hadmits hsource _ hfinal ih => exact .settle hwire hadmits hsource ih hfinal
  | proceed hwire hadmits hsource hlook hfinal _ ihlook ihrest =>
    exact .proceed hwire hadmits hsource ihlook hfinal hlook.restored ihrest
  | stay _ ih =>
    rintro _ e' hl ⟨⟩ he
    obtain ⟨answer', f', hask, hend⟩ := ih hl (.ask _ _) he
    rw [l.timing_now]
    exact ⟨answer', f', .stay hask, hend⟩
  | deadEnd htiming hdead =>
    rintro _ e' hl ⟨⟩ he
    rw [← he.deadEnds, l.tick_add_step] at hdead
    exact ⟨_, e', .deadEnd (l.timing_ne_now htiming) hdead, .ok hl.nothing, he⟩
  | known htiming hdead hframe _ ih => exact .known htiming hdead hframe ih
  | adrift htiming hdead hnew hcurrent =>
    rintro _ e' hl ⟨⟩ he
    exact ⟨_, e', .adrift (l.timing_ne_now htiming) (he.next_not_dead hdead) (he.next_none hnew)
      (he.frame_none hcurrent), .ok hl.nothing, he⟩
  | unprojectable htiming hdead hnew hcurrent hproject =>
    exact .unprojectable htiming hdead hnew hcurrent hproject
  | stale htiming hdead hnew hcurrent hproject hstale =>
    exact .stale htiming hdead hnew hcurrent hproject hstale
  | imagine htiming hdead hnew hcurrent hproject hfresh _ ih =>
    exact .imagine htiming hdead hnew hcurrent hproject hfresh ih

/-! ## Questions -/

namespace Alike

variable {e e' : Evaluator}

theorem mem_keys_iff (h : Alike l e e') (tick : Int) :
    l.tick tick ∈ e'.timeline.frames.keys ↔ tick ∈ e.timeline.frames.keys := by
  rw [Table.mem_keys_iff, Table.mem_keys_iff]
  cases hframe : e.timeline.frames.get? tick with
  | none =>
    have hnone : e'.timeline.frames.get? (l.tick tick) = none := h.frame_none hframe
    rw [hnone]
  | some frame =>
    obtain ⟨other, hother, -⟩ := h.frame_some hframe
    have hsome : e'.timeline.frames.get? (l.tick tick) = some other := hother
    rw [hsome]
    rfl

theorem frames_size (h : Alike l e e') : e'.timeline.frames.size = e.timeline.frames.size := by
  have hlength : ∀ e : Evaluator, e.timeline.frames.size = e.timeline.frames.keys.length := fun e => by
    rw [Table.size, Table.keys, List.length_map]
  -- to count the ticks of the first evaluator is to count the ticks that correspond to them
  have hperm : (e.timeline.frames.keys.map l.tick).Perm e'.timeline.frames.keys := by
    have hnodup : (e.timeline.frames.keys.map l.tick).Nodup :=
      e.timeline.frames.nodup.map fun _ _ => l.tick_inj.mp
    refine (List.perm_ext_iff_of_nodup hnodup e'.timeline.frames.nodup).mpr fun tick => ?_
    have hback := h.mem_keys_iff (l.tick tick)
    rw [l.tick_tick] at hback
    change _ ↔ tick ∈ e'.timeline.frames.keys
    rw [hback, List.mem_map]
    constructor
    · rintro ⟨other, hother, rfl⟩
      rwa [l.tick_tick]
    · intro hmem
      exact ⟨_, hmem, l.tick_tick tick⟩
  rw [hlength, hlength, ← hperm.length_eq, List.length_map]

theorem width (hl : l.Lawful validate) (h : Alike l e e') : e'.timeline.width = e.timeline.width := by
  apply Nat.le_antisymm
  · refine Timeline.width_le_iff.mpr fun tick frame hframe => ?_
    rw [← l.tick_tick tick] at hframe
    cases hback : e.timeline.frame? (l.tick tick) with
    | none =>
      rw [h.frame_none hback] at hframe
      cases hframe
    | some other =>
      obtain ⟨_, hframe', hcircuit⟩ := h.frame_some hback
      rw [hframe'] at hframe
      cases hframe
      rw [hl.size hcircuit]
      exact Timeline.size_le_width hback
  · refine Timeline.width_le_iff.mpr fun tick frame hframe => ?_
    obtain ⟨other, hother, hcircuit⟩ := h.frame_some hframe
    rw [← hl.size hcircuit]
    exact Timeline.size_le_width hother

/-- Both are allowed to go equally deep. -/
theorem depthBound (hl : l.Lawful validate) (h : Alike l e e') : e'.depthBound = e.depthBound := by
  rw [Evaluator.depthBound, Evaluator.depthBound, h.frames_size, h.width hl]

/-- Evaluators that are alike give like replies to a query, and are left alike by it. -/
theorem reply (h : Alike l e e') (hl : l.Lawful e.validate) (id : CellId) (timing : Timing)
    (hlooks : l.looks timing) :
    Likewise l.peak (e.reply ⟨id, l.colour, timing⟩) (e'.reply ⟨id, l.colour, l.timing timing⟩) ∧
      Alike l (e.next ⟨id, l.colour, timing⟩) (e'.next ⟨id, l.colour, l.timing timing⟩) := by
  cases hframe : e.timeline.frame? 0 with
  | none =>
    have hframe' := h.frame_none hframe
    rw [l.tick_zero] at hframe'
    obtain ⟨hsame, hreply⟩ := reply_of_frameless ⟨id, l.colour, timing⟩ hframe
    obtain ⟨hsame', hreply'⟩ := reply_of_frameless ⟨id, l.colour, l.timing timing⟩ hframe'
    rw [hsame, hreply, hsame', hreply']
    exact ⟨.error _, h⟩
  | some present =>
    obtain ⟨present', hframe', hcircuit⟩ := h.frame_some hframe
    rw [l.tick_zero] at hframe'
    cases hcell : present.circuit.cell id with
    | error fault =>
      obtain ⟨hsame, hreply⟩ := reply_of_absent ⟨id, l.colour, timing⟩ hframe hcell
      obtain ⟨hsame', hreply'⟩ := reply_of_absent ⟨id, l.colour, l.timing timing⟩ hframe' ((hl.cells hcircuit id).of_error hcell)
      rw [hsame, hreply, hsame', hreply']
      exact ⟨.error _, h⟩
    | ok cell =>
      obtain ⟨cell', hcell', -⟩ := (hl.cells hcircuit id).of_ok hcell
      have hwalk := walk_of_live ⟨id, l.colour, timing⟩ hframe hcell
      have hwalk' := walk_of_live ⟨id, l.colour, l.timing timing⟩ hframe' hcell'
      obtain ⟨answer, f, hlike, hanswer, hf⟩ := hwalk.alike hl (.look 0 id hlooks) h
      -- the second evaluator's own walk is the one that is alike
      rw [h.depthBound hl] at hwalk'
      rw [l.tick_zero] at hlike
      obtain ⟨rfl, rfl⟩ := hlike.unique hwalk'
      exact ⟨hanswer, hf⟩

end Alike

/-- Fresh evaluators are alike if the circuits they are given are. -/
theorem alike_ofHistory {c d : Circuit} {past past' future future' : List Circuit} (validate : Bool)
    (hframe : ∀ tick, Option.Rel (Frame.Alike l) ((Timeline.ofHistory c past future).frame? tick)
      ((Timeline.ofHistory d past' future').frame? (l.tick tick))) :
    Alike l (ofHistory validate c past future) (ofHistory validate d past' future') where
  validate := rfl
  frame := hframe
  memo _ _ := .none
  depth := rfl
  reentered := rfl
  deadEnds _ := by simp [ofHistory]
  stats := rfl

/-- Evaluators for nothing but the present are alike if what they are given is. -/
theorem alike_alone {c d : Circuit} (h : l.circuit c d) (validate : Bool) :
    Alike l (ofHistory validate c [] []) (ofHistory validate d [] []) := by
  apply alike_ofHistory
  intro tick
  rw [Timeline.frame?_ofHistory, Timeline.frame?_ofHistory]
  by_cases hzero : tick = 0
  · subst hzero
    rw [l.tick_zero]
    exact .some h
  · have hother : l.tick tick ≠ 0 := fun heq => hzero (l.tick_inj.mp (heq.trans l.tick_zero.symm))
    rw [if_neg (by simp; omega), if_neg (by simp; omega)]
    exact .none

end Walks

end Evaluator

end PulseCircuit
