import PulseCircuit.Proofs.Journal
import PulseCircuit.Proofs.QueryOrder
import PulseCircuit.Proofs.Underway

/-!
# Untainted peaks

A computation begins while keys around it are pending, and ends without having asked for one of them again. Then
nothing of what it found depends on them: alone, with the same peaks remembered and nothing pending, it goes the
same way and finds the same (`Walk.alone`).

The proof takes the pending keys around a depth away (`Detached`). The steps of a walk that goes on without them
are the same, with depths counted from there, unless one of the missing keys is asked for. That would leave a
mark further out than the depth, and marks are never lost (`Walk.reentered_le`).

* `History.untainted_as_alone`: so it is wherever a query comes to, and each peak that is remembered is the one
  that was found at the top when its computation began.
-/

namespace PulseCircuit

/-! ## Some rows of a table -/

namespace Table

variable {κ α : Type}

/-- The rows whose values pass a test. -/
def keep (p : α → Bool) (t : Table κ α) : Table κ α where
  rows := t.rows.filter fun row => p row.2
  nodup := t.nodup.sublist (List.filter_sublist.map Prod.fst)

theorem get?_keep [DecidableEq κ] (p : α → Bool) (t : Table κ α) (k : κ) :
    (t.keep p).get? k = (t.get? k).filter p := by
  ext v
  rw [get?_eq_some_iff, Option.filter_eq_some_iff, get?_eq_some_iff]
  exact List.mem_filter

end Table

namespace Memo

def isDone : Memo → Bool
  | .done _ => true
  | .pending _ => false

/-- A memo seen from a depth: what is pending further out is not there. -/
def inside? (base : Nat) : Memo → Option Memo
  | .done peak => some (.done peak)
  | .pending depth => if base ≤ depth then some (.pending (depth - base)) else none

end Memo

namespace Evaluator

open Running

/-! ## Nothing around -/

/-- The evaluator with the peaks that are remembered, and nothing going on. -/
def alone (e : Evaluator) : Evaluator :=
  { e with memo := e.memo.keep Memo.isDone, depth := 0, reentered := none }

theorem get?_alone (e : Evaluator) (key : MemoKey) :
    e.alone.memo.get? key = (e.memo.get? key).filter Memo.isDone :=
  Table.get?_keep ..

theorem idle_alone (e : Evaluator) : e.alone.Idle where
  depth := rfl
  reentered := rfl
  pending key := by
    rw [pendingDepth?, get?_alone]
    cases e.memo.get? key with
    | none => rfl
    | some memo => cases memo <;> rfl

/-- The second evaluator is the first one without what is pending further out than a depth. -/
structure Detached (base : Nat) (e f : Evaluator) : Prop where
  validate : f.validate = e.validate
  timeline : f.timeline = e.timeline
  deadEnds : f.deadEnds = e.deadEnds
  stats : f.stats = e.stats
  depth : e.depth = base + f.depth
  reentered : e.reentered = f.reentered.map (base + ·)
  memo : ∀ key, f.memo.get? key = (e.memo.get? key).bind (Memo.inside? base)

/-- No key further out than a depth was asked for again. -/
def MarksInside (base : Nat) (e : Evaluator) : Prop := ∀ low ∈ e.reentered, base ≤ low

theorem outermost_map (base : Nat) (a b : Option Nat) :
    outermost (a.map (base + ·)) (b.map (base + ·)) = (outermost a b).map (base + ·) := by
  cases a <;> cases b <;> simp [outermost, Nat.add_min_add_left]

theorem taint_map (base depth : Nat) (reentered : Option Nat) :
    taint (base + depth) (reentered.map (base + ·)) = (taint depth reentered).map (base + ·) := by
  cases reentered with
  | none => rfl
  | some low =>
    rw [Option.map_some, taint, taint, Option.filter_some, Option.filter_some]
    by_cases hlow : low < depth <;> simp [hlow]

/-- Marks are never lost, so a walk that ends without one has not made one. -/
theorem Walk.marksInside {base fuel : Nat} {task : Task} {e e' : Evaluator} {answer : Except Fault Peak}
    (h : Walk fuel task e answer e') (hmarks : MarksInside base e') : MarksInside base e := by
  intro low hlow
  obtain ⟨least, hleast, hle⟩ := h.reentered_le hlow
  exact Nat.le_trans (hmarks least hleast) hle

theorem marksInside_of_untainted {e : Evaluator} {depth : Nat} (h : taint depth e.reentered = none) :
    MarksInside depth e := by
  intro low hlow
  rw [Option.mem_def.mp hlow, taint, Option.filter_some] at h
  by_contra hless
  rw [if_pos (by simpa using hless)] at h
  cases h

/-- What a computation passes on it has found. -/
theorem MarksInside.of_leave {base : Nat} {e e' : Evaluator} {key : MemoKey} {peak : Option Peak}
    (hbase : base ≤ e.depth) (h : MarksInside base (e'.leave key e.depth e.reentered peak)) :
    MarksInside base e' := by
  intro low hlow
  by_contra hless
  have hout : low < e.depth := by omega
  have htaint : taint e.depth e'.reentered = some low := by
    rw [Option.mem_def.mp hlow, taint, Option.filter_some, if_pos (by simpa using hout)]
  obtain ⟨least, hleast, hle⟩ := outermost_le_right e.reentered low
  have hpassed := h least (by rw [reentered_leave, htaint]; exact hleast)
  omega

namespace Detached

variable {base : Nat} {e f : Evaluator}

theorem recalling (h : Detached base e f) : Detached base e.recalling f.recalling :=
  { h with stats := by rw [Evaluator.recalling, Evaluator.recalling, h.stats] }

theorem counting (h : Detached base e f) : Detached base e.counting f.counting :=
  { h with stats := by rw [Evaluator.counting, Evaluator.counting, h.stats] }

theorem reentering (h : Detached base e f) {depth : Nat} (hdepth : base ≤ depth) :
    Detached base (e.reentering depth) (f.reentering (depth - base)) :=
  { h with
    reentered := by
      rw [reentered_reentering, reentered_reentering, h.reentered, ← outermost_map, Option.map_some,
        Nat.add_sub_cancel' hdepth] }

theorem closing (h : Detached base e f) (tick : Int) : Detached base (e.closing tick) (f.closing tick) :=
  { h with
    deadEnds := congrArg (tick :: ·) h.deadEnds
    stats := by rw [Evaluator.closing, Evaluator.closing, h.stats] }

theorem imagining (h : Detached base e f) (tick : Int) (c : Circuit) :
    Detached base (e.imagining tick c) (f.imagining tick c) :=
  { h with
    timeline := congrArg (·.imagine tick c) h.timeline
    stats := by rw [Evaluator.imagining, Evaluator.imagining, h.stats] }

theorem isStale (h : Detached base e f) (offset step : Int) (current projected : Circuit) :
    f.isStale offset step current projected = e.isStale offset step current projected := by
  rw [Evaluator.isStale, Evaluator.isStale, h.timeline]

theorem enter (h : Detached base e f) (key : MemoKey) : Detached base (e.enter key) (f.enter key) where
  validate := h.validate
  timeline := h.timeline
  deadEnds := h.deadEnds
  stats := h.stats
  depth := congrArg (· + 1) h.depth
  reentered := rfl
  memo other := by
    rw [get?_enter, get?_enter]
    split
    · simp [Memo.inside?, h.depth]
    · exact h.memo other

theorem leave (h : Detached base e f) (hdepth : 0 < f.depth) (key : MemoKey) (depth : Nat) (outer : Option Nat)
    (peak : Option Peak) :
    Detached base (e.leave key (base + depth) (outer.map (base + ·)) peak) (f.leave key depth outer peak) where
  validate := h.validate
  timeline := h.timeline
  deadEnds := h.deadEnds
  stats := h.stats
  depth := by rw [depth_leave, depth_leave, h.depth, Nat.add_sub_assoc hdepth]
  reentered := by rw [reentered_leave, reentered_leave, h.reentered, taint_map, outermost_map]
  memo other := by
    rw [get?_leave, get?_leave, h.reentered, taint_map]
    split
    · cases peak <;> cases taint depth f.reentered <;> rfl
    · exact h.memo other

theorem get?_done (h : Detached base e f) {key : MemoKey} {peak : Peak} :
    f.memo.get? key = some (.done peak) ↔ e.memo.get? key = some (.done peak) := by
  rw [h.memo]
  cases e.memo.get? key with
  | none => rfl
  | some memo =>
    cases memo with
    | done found => rfl
    | pending depth =>
      rw [Option.bind_some, Memo.inside?]
      split <;> simp

end Detached

/-- A walk that asks for no key further out goes the same way if these keys are not there. -/
theorem Walk.detached {base fuel : Nat} {task : Task} {e e' f : Evaluator} {answer : Except Fault Peak}
    (h : Walk fuel task e answer e') (hdetached : Detached base e f) (hmarks : MarksInside base e') :
    ∃ f', Walk fuel task f answer f' ∧ Detached base e' f' := by
  induction h generalizing f with
  | cut => exact ⟨f, .cut, hdetached⟩
  | reuse hdone => exact ⟨_, .reuse (hdetached.get?_done.mpr hdone), hdetached.recalling⟩
  | @again _ e offset id colour depth hpending =>
    -- a missing key would have left a mark
    have hdepth : base ≤ depth := by
      obtain ⟨least, hleast, hle⟩ := outermost_le_right e.reentered depth
      exact Nat.le_trans (hmarks least hleast) hle
    have hinner : f.memo.get? ⟨offset, id, colour⟩ = some (.pending (depth - base)) := by
      rw [hdetached.memo, hpending, Option.bind_some, Memo.inside?, if_pos hdepth]
    exact ⟨_, .again hinner, hdetached.reentering hdepth⟩
  | @descend _ e e' offset id colour answer hnew hbody ih =>
    have hbase : base ≤ e.depth := hdetached.depth ▸ Nat.le_add_right ..
    obtain ⟨f', hwalk, hend⟩ := ih (hdetached.enter _) (hmarks.of_leave hbase)
    refine ⟨_, .descend ?_ hwalk, ?_⟩
    · rw [hdetached.memo, hnew]
      rfl
    · rw [hdetached.depth, hdetached.reentered]
      exact hend.leave hwalk.restored.depth_pos ..
  | frameless hframe => exact ⟨f, .frameless (hdetached.timeline ▸ hframe), hdetached⟩
  | absent hframe hcell hoffset => exact ⟨f, .absent (hdetached.timeline ▸ hframe) hcell hoffset, hdetached⟩
  | lost hframe hcell hhere => exact ⟨f, .lost (hdetached.timeline ▸ hframe) hcell hhere, hdetached⟩
  | stored hframe hcell hfinal =>
    exact ⟨_, .stored (hdetached.timeline ▸ hframe) hcell hfinal, hdetached.counting⟩
  | gather hframe hcell hfinal _ ih =>
    obtain ⟨f', hwalk, hend⟩ := ih hdetached.counting hmarks
    exact ⟨f', .gather (hdetached.timeline ▸ hframe) hcell hfinal hwalk, hend⟩
  | done => exact ⟨f, .done, hdetached⟩
  | wireless hwire => exact ⟨f, .wireless hwire, hdetached⟩
  | skip hwire hadmits _ ih =>
    obtain ⟨f', hwalk, hend⟩ := ih hdetached hmarks
    exact ⟨f', .skip hwire hadmits hwalk, hend⟩
  | sourceless hwire hadmits hsource => exact ⟨f, .sourceless hwire hadmits hsource, hdetached⟩
  | broken hwire hadmits hsource _ ih =>
    obtain ⟨f', hwalk, hend⟩ := ih hdetached hmarks
    exact ⟨f', .broken hwire hadmits hsource hwalk, hend⟩
  | settle hwire hadmits hsource _ hfinal ih =>
    obtain ⟨f', hwalk, hend⟩ := ih hdetached hmarks
    exact ⟨f', .settle hwire hadmits hsource hwalk hfinal, hend⟩
  | proceed hwire hadmits hsource _ hfinal hrest ihlook ihrest =>
    obtain ⟨f', hlook, hmiddle⟩ := ihlook hdetached (hrest.marksInside hmarks)
    obtain ⟨f'', hwalk, hend⟩ := ihrest hmiddle hmarks
    exact ⟨f'', .proceed hwire hadmits hsource hlook hfinal hwalk, hend⟩
  | stay _ ih =>
    obtain ⟨f', hwalk, hend⟩ := ih hdetached hmarks
    exact ⟨f', .stay hwalk, hend⟩
  | deadEnd htiming hdead => exact ⟨f, .deadEnd htiming (hdetached.deadEnds ▸ hdead), hdetached⟩
  | known htiming hdead hframe _ ih =>
    obtain ⟨f', hwalk, hend⟩ := ih hdetached hmarks
    exact ⟨f', .known htiming (hdetached.deadEnds ▸ hdead) (hdetached.timeline ▸ hframe) hwalk, hend⟩
  | adrift htiming hdead hnew hcurrent =>
    exact ⟨f, .adrift htiming (hdetached.deadEnds ▸ hdead) (hdetached.timeline ▸ hnew)
      (hdetached.timeline ▸ hcurrent), hdetached⟩
  | unprojectable htiming hdead hnew hcurrent hproject =>
    exact ⟨f, .unprojectable htiming (hdetached.deadEnds ▸ hdead) (hdetached.timeline ▸ hnew)
      (hdetached.timeline ▸ hcurrent) (hdetached.validate ▸ hproject), hdetached⟩
  | stale htiming hdead hnew hcurrent hproject hstale =>
    exact ⟨_, .stale htiming (hdetached.deadEnds ▸ hdead) (hdetached.timeline ▸ hnew)
      (hdetached.timeline ▸ hcurrent) (hdetached.validate ▸ hproject)
      ((hdetached.isStale ..).trans hstale), hdetached.closing _⟩
  | imagine htiming hdead hnew hcurrent hproject hfresh _ ih =>
    obtain ⟨f', hwalk, hend⟩ := ih (hdetached.imagining _ _) hmarks
    exact ⟨f', .imagine htiming (hdetached.deadEnds ▸ hdead) (hdetached.timeline ▸ hnew)
      (hdetached.timeline ▸ hcurrent) (hdetached.validate ▸ hproject)
      ((hdetached.isStale ..).trans hfresh) hwalk, hend⟩

/-! ## The same findings -/

/-- Two evaluators that have found the same. What is pending in them makes no difference. -/
structure SameFindings (e f : Evaluator) : Prop where
  timeline : f.timeline = e.timeline
  deadEnds : f.deadEnds = e.deadEnds
  stats : f.stats = e.stats
  done : ∀ key peak, f.memo.get? key = some (.done peak) ↔ e.memo.get? key = some (.done peak)

theorem Detached.sameFindings {base : Nat} {e f : Evaluator} (h : Detached base e f) : SameFindings e f :=
  ⟨h.timeline, h.deadEnds, h.stats, fun _ _ => h.get?_done⟩

theorem sameFindings_alone (e : Evaluator) : SameFindings e e.alone where
  timeline := rfl
  deadEnds := rfl
  stats := rfl
  done key peak := by
    rw [get?_alone, Option.filter_eq_some_iff]
    exact and_iff_left rfl

/-- A computation that begins in an evaluator is the same as one that begins with nothing around it. -/
theorem detached_alone {e : Evaluator} (hlayered : Layered e) (key : MemoKey) :
    Detached e.depth (e.enter key) (e.alone.enter key) where
  validate := rfl
  timeline := rfl
  deadEnds := rfl
  stats := rfl
  depth := rfl
  reentered := rfl
  memo other := by
    rw [get?_enter, get?_enter]
    split
    · simp [Memo.inside?, alone]
    · rw [get?_alone]
      cases hmemo : e.memo.get? other with
      | none => rfl
      | some memo =>
        cases memo with
        | done peak => rfl
        | pending depth =>
          -- all that was pending before is further out
          have hless : depth < e.depth := hlayered other depth (by rw [pendingDepth?, hmemo])
          simp [Memo.isDone, Memo.inside?, Nat.not_le_of_lt hless]

/-- A computation that ends untainted goes the same way with nothing around it, and finds the same. -/
theorem Walk.alone {fuel : Nat} {offset : Int} {id : CellId} {colour : Colour} {e e' : Evaluator}
    {answer : Except Fault Peak} (hlayered : Layered e) (hnew : e.memo.get? ⟨offset, id, colour⟩ = none)
    (hbody : Walk fuel (.compute offset id colour) (e.enter ⟨offset, id, colour⟩) answer e')
    (huntainted : taint e.depth e'.reentered = none) :
    ∃ f, Walk (fuel + 1) (.ask offset id colour) e.alone answer f ∧
      SameFindings (e'.leave ⟨offset, id, colour⟩ e.depth e.reentered answer.toOption) f := by
  obtain ⟨f, hwalk, hend⟩ :=
    hbody.detached (detached_alone hlayered _) (marksInside_of_untainted huntainted)
  have hnew' : e.alone.memo.get? ⟨offset, id, colour⟩ = none := by
    rw [get?_alone, hnew]
    rfl
  -- the mark that was there before is no finding
  have hleave :=
    (hend.leave hwalk.restored.depth_pos ⟨offset, id, colour⟩ 0 none answer.toOption).sameFindings
  exact ⟨_, .descend hnew' hwalk, ⟨hleave.timeline, hleave.deadEnds, hleave.stats, hleave.done⟩⟩

/-! ## Computations of a query -/

/-- The query comes to ask for a key of which nothing is known yet, and its computation begins. -/
structure Begins (e : Evaluator) (q : Query) (fuel : Nat) (key : MemoKey) (d : Evaluator) : Prop where
  comes : e.ComesTo q ⟨fuel + 1, .ask key.offset key.cell key.colour, d⟩
  new : d.memo.get? key = none

/-- The computation of a key that begins in the evaluator does not ask for a key again that was pending. -/
def Untainted (fuel : Nat) (key : MemoKey) (e : Evaluator) : Prop :=
  taint e.depth
    ((computeNow (peakNow fuel) key.offset key.cell key.colour).final (e.enter key)).reentered = none

/-- From the same findings with nothing going on, the answer for the key is the same and leads to the same
findings. It does so if the walk is allowed to go deeper, too, unless it was cut off. -/
structure AsAlone (fuel : Nat) (key : MemoKey) (e : Evaluator) : Prop where
  idle : e.alone.Idle
  start : SameFindings e e.alone
  answer : (peakNow fuel key.offset key.cell key.colour).answer e.alone =
    (peakNow fuel key.offset key.cell key.colour).answer e
  findings : SameFindings ((peakNow fuel key.offset key.cell key.colour).final e)
    ((peakNow fuel key.offset key.cell key.colour).final e.alone)
  deeper : ∀ more ≥ fuel,
    (∀ id, (peakNow fuel key.offset key.cell key.colour).answer e ≠ .error (.endless id)) →
    peakNow more key.offset key.cell key.colour e.alone = peakNow fuel key.offset key.cell key.colour e.alone

/-- With nothing going on around, the key has the peak, and a query that asks for it is answered so. -/
structure AnswersAlone (e : Evaluator) (key : MemoKey) (peak : Peak) : Prop where
  computed : (peakNow e.depthBound key.offset key.cell key.colour).answer e.alone = .ok peak
  replied : ∀ timing : Timing, key.offset = timing.step →
    (∃ present cell, e.timeline.frame? 0 = some present ∧ present.circuit.cell key.cell = .ok cell) →
    e.alone.reply ⟨key.cell, key.colour, timing⟩ = .ok peak

theorem asAlone_of_untainted {fuel : Nat} {key : MemoKey} {e : Evaluator} (hlayered : Layered e)
    (hnew : e.memo.get? key = none) (huntainted : Untainted fuel key e) : AsAlone (fuel + 1) key e := by
  have hbody := isWalk_computeNow (isWalk_peakNow fuel) key.offset key.cell key.colour (e.enter key)
  obtain ⟨f, halone, hsame⟩ := Walk.alone hlayered hnew hbody huntainted
  have haround := isWalk_peakNow (fuel + 1) key.offset key.cell key.colour e
  obtain ⟨hanswer, hfinal⟩ := haround.unique (.descend hnew hbody)
  have hrun := isWalk_peakNow (fuel + 1) key.offset key.cell key.colour e.alone
  obtain ⟨hanswer', hfinal'⟩ := hrun.unique halone
  refine ⟨e.idle_alone, e.sameFindings_alone, hanswer'.trans hanswer.symm, ?_, fun more hmore hend => ?_⟩
  · rw [hfinal, hfinal']
    exact hsame
  · refine (isWalk_peakNow more key.offset key.cell key.colour e.alone).run_eq ?_
    exact hrun.mono (fun id => by rw [hanswer', ← hanswer]; exact hend id) hmore

/-! ## Where a task begins -/

/-- The task may go no deeper than a query may, its tick is known, and no closed tick is. -/
structure Stage.Placed (s : Stage) : Prop where
  room : s.fuel ≤ s.evaluator.depthBound
  frame : ∃ frame, s.evaluator.timeline.frame? s.task.tick = some frame
  closed : ∀ tick ∈ s.evaluator.deadEnds, s.evaluator.timeline.frame? tick = none

theorem Stage.Calls.placed {s t : Stage} (h : s.Calls t) (hplaced : s.Placed) : t.Placed := by
  obtain ⟨hroom, ⟨current, hframe⟩, hclosed⟩ := hplaced
  cases h with
  | compute => exact ⟨Nat.le_of_succ_le hroom, ⟨current, hframe⟩, hclosed⟩
  | gather => exact ⟨hroom, ⟨current, hframe⟩, hclosed⟩
  | skip | look | stay => exact ⟨hroom, ⟨current, hframe⟩, hclosed⟩
  | proceed _ _ _ hlook =>
    exact ⟨Nat.le_trans hroom hlook.grows.depthBound, ⟨current, hlook.grows.frame _ _ hframe⟩,
      hlook.frameless_deadEnds hclosed⟩
  | known _ _ hnext => exact ⟨hroom, ⟨_, hnext⟩, hclosed⟩
  | imagine _ hdead hnew =>
    refine ⟨Nat.le_trans hroom (grows_imagining _ hnew _).depthBound, exists_frame?_imagining _ _ _, ?_⟩
    intro tick htick
    rw [imagining, Timeline.frame?_imagine, if_neg (by rintro rfl; exact hdead htick)]
    exact hclosed tick htick

theorem ComesTo.placed {e : Evaluator} {q : Query} {s : Stage} (h : e.ComesTo q s)
    (hclosed : ∀ tick ∈ e.deadEnds, e.timeline.frame? tick = none) : s.Placed := by
  obtain ⟨⟨present, cell, hframe, -⟩, hcalls⟩ := h
  induction hcalls with
  | refl => exact ⟨Nat.le_refl _, ⟨present, hframe⟩, hclosed⟩
  | tail _ hcall ih => exact hcall.placed ih

/-- An untainted peak is the answer of a query at the top. -/
theorem answersAlone {fuel : Nat} {key : MemoKey} {e : Evaluator} {peak : Peak}
    (hplaced : Stage.Placed ⟨fuel + 1, .ask key.offset key.cell key.colour, e⟩)
    (halone : AsAlone (fuel + 1) key e)
    (hpeak : (peakNow (fuel + 1) key.offset key.cell key.colour).answer e = .ok peak) :
    e.AnswersAlone key peak := by
  have hwalk := isWalk_peakNow e.depthBound key.offset key.cell key.colour e.alone
  have hcomputed : (peakNow e.depthBound key.offset key.cell key.colour).answer e.alone = .ok peak := by
    rw [Evaluation.answer, halone.deeper _ hplaced.room (fun id => by rw [hpeak]; simp)]
    exact halone.answer.trans hpeak
  rw [IsWalk, hcomputed] at hwalk
  refine ⟨hcomputed, ?_⟩
  rintro timing hoffset ⟨present, cell, hpresent, hcell⟩
  have hreply := walk_of_live (e := e.alone) ⟨key.cell, key.colour, timing⟩ hpresent hcell
  have hlook : ∃ f, Walk e.depthBound (.look 0 key.cell key.colour timing) e.alone (.ok peak) f := by
    by_cases htiming : timing = .now
    · subst htiming
      rw [hoffset] at hwalk
      exact ⟨_, .stay hwalk⟩
    · -- the tick of the key is known, so it is not closed
      obtain ⟨frame, hframe⟩ := hplaced.frame
      rw [Task.tick] at hframe
      have htick : key.offset = 0 + timing.step := by rw [hoffset, Int.zero_add]
      rw [htick] at hframe hwalk
      refine ⟨_, .known htiming (fun hdead => ?_) hframe hwalk⟩
      rw [hplaced.closed _ hdead] at hframe
      cases hframe
  obtain ⟨f, hlook⟩ := hlook
  exact (hreply.unique hlook).1

/-! ## Where a peak was remembered -/

/-- Some computation under the stage ended untainted with the peak of the key. -/
def Stage.Finds (s : Stage) (key : MemoKey) (peak : Peak) : Prop :=
  ∃ fuel d, Relation.ReflTransGen Stage.Calls s ⟨fuel + 1, .ask key.offset key.cell key.colour, d⟩ ∧
    d.memo.get? key = none ∧ Untainted fuel key d ∧
    (peakNow (fuel + 1) key.offset key.cell key.colour).answer d = .ok peak

theorem Stage.Finds.head {s t : Stage} {key : MemoKey} {peak : Peak} (hcall : s.Calls t)
    (h : t.Finds key peak) : s.Finds key peak := by
  obtain ⟨fuel, d, hcalls, hfinds⟩ := h
  exact ⟨fuel, d, .head hcall hcalls, hfinds⟩

/-- What is remembered after a walk was remembered before it, or found on the way. -/
theorem Walk.finds {fuel : Nat} {task : Task} {e e' : Evaluator} {answer : Except Fault Peak}
    (h : Walk fuel task e answer e') {key : MemoKey} {peak : Peak}
    (hdone : e'.memo.get? key = some (.done peak)) :
    e.memo.get? key = some (.done peak) ∨ Stage.Finds ⟨fuel, task, e⟩ key peak := by
  induction h with
  | @descend fuel e e' offset id colour answer hnew hbody ih =>
    rw [get?_leave] at hdone
    split at hdone
    next hsame =>
      subst hsame
      cases answer with
      | error fault => cases hdone
      | ok found =>
        cases htaint : taint e.depth e'.reentered with
        | some low =>
          rw [htaint] at hdone
          cases hdone
        | none =>
          rw [htaint] at hdone
          cases hdone
          have hrun := isWalk_computeNow (isWalk_peakNow fuel) offset id colour (e.enter ⟨offset, id, colour⟩)
          refine Or.inr ⟨fuel, e, .refl, hnew, ?_, ?_⟩
          · rw [Untainted, (hrun.unique hbody).2]
            exact htaint
          · exact ((isWalk_peakNow (fuel + 1) offset id colour e).unique (.descend hnew hbody)).1
    next hother =>
      refine (ih hdone).imp (fun hinner => ?_) (.head (.compute hnew))
      rwa [get?_enter, if_neg hother] at hinner
  | gather hframe hcell hfinal _ ih => exact (ih hdone).imp_right (.head (.gather hframe hcell hfinal))
  | skip hwire hadmits _ ih => exact (ih hdone).imp_right (.head (.skip hwire hadmits))
  | broken hwire hadmits hsource _ ih => exact (ih hdone).imp_right (.head (.look hwire hadmits hsource))
  | settle hwire hadmits hsource _ _ ih => exact (ih hdone).imp_right (.head (.look hwire hadmits hsource))
  | proceed hwire hadmits hsource hlook hfinal _ ihlook ihrest =>
    rcases ihrest hdone with hmiddle | hrest
    · exact (ihlook hmiddle).imp_right (.head (.look hwire hadmits hsource))
    · exact Or.inr (hrest.head (.proceed hwire hadmits hsource hlook hfinal))
  | stay _ ih => exact (ih hdone).imp_right (.head .stay)
  | known htiming hdead hframe _ ih => exact (ih hdone).imp_right (.head (.known htiming hdead hframe))
  | imagine htiming hdead hnew hcurrent hproject hfresh _ ih =>
    exact (ih hdone).imp_right (.head (.imagine htiming hdead hnew hcurrent hproject hfresh))
  | cut | reuse | again | frameless | absent | lost | stored | done | wireless | sourceless | deadEnd
  | adrift | unprojectable | stale => exact Or.inl hdone

/-- What is remembered where a task begins was remembered where its caller began, or found by it. -/
theorem Stage.Calls.finds {s t : Stage} (h : s.Calls t) {key : MemoKey} {peak : Peak}
    (hdone : t.evaluator.memo.get? key = some (.done peak)) :
    s.evaluator.memo.get? key = some (.done peak) ∨ s.Finds key peak := by
  cases h with
  | compute =>
    rw [get?_enter] at hdone
    split at hdone
    · cases hdone
    · exact Or.inl hdone
  | proceed hwire hadmits hsource hlook _ =>
    exact (hlook.finds hdone).imp_right (.head (.look hwire hadmits hsource))
  | gather | skip | look | stay | known | imagine => exact Or.inl hdone

theorem ComesTo.finds {e : Evaluator} {q : Query} {s : Stage} (h : e.ComesTo q s) {key : MemoKey} {peak : Peak}
    (hdone : s.evaluator.memo.get? key = some (.done peak)) :
    e.memo.get? key = some (.done peak) ∨ (e.opening q).Finds key peak := by
  obtain ⟨-, hcalls⟩ := h
  induction hcalls with
  | refl => exact Or.inl hdone
  | tail hbefore hcall ih =>
    rcases hcall.finds hdone with hold | ⟨fuel, d, hafter, hfinds⟩
    · exact ih hold
    · exact Or.inr ⟨fuel, d, hbefore.trans hafter, hfinds⟩

/-- Since a query began, some computation of the key ended untainted with the peak. -/
def Finds (e : Evaluator) (q : Query) (key : MemoKey) (peak : Peak) : Prop :=
  ∃ fuel c, e.Begins q fuel key c ∧ Untainted fuel key c ∧
    (peakNow (fuel + 1) key.offset key.cell key.colour).answer c = .ok peak

theorem ComesTo.lift {e : Evaluator} {q : Query} {s : Stage} (h : e.ComesTo q s) {key : MemoKey} {peak : Peak}
    (hfinds : (e.opening q).Finds key peak) : e.Finds q key peak := by
  obtain ⟨fuel, c, hcalls, hnew, hfound⟩ := hfinds
  exact ⟨fuel, c, ⟨⟨h.live, hcalls⟩, hnew⟩, hfound⟩

/-- What is remembered while a query is under way was remembered before it, or was found since it began. -/
theorem Sees.finds {e d : Evaluator} {q : Query} (h : e.Sees q d) {key : MemoKey} {peak : Peak}
    (hdone : d.memo.get? key = some (.done peak)) :
    e.memo.get? key = some (.done peak) ∨ e.Finds q key peak := by
  cases h with
  | start hcomes => exact (hcomes.finds hdone).imp_right hcomes.lift
  | stop hcomes hwalk =>
    rcases hwalk.finds hdone with hold | ⟨fuel, c, hafter, hfound⟩
    · exact (hcomes.finds hold).imp_right hcomes.lift
    · exact Or.inr (hcomes.lift ⟨fuel, c, hcomes.calls.trans hafter, hfound⟩)

/-- What is remembered after some queries was found by one of them. -/
theorem exists_finds_of_asked {e : Evaluator} (hempty : ∀ key, e.memo.get? key = none) (queries : List Query)
    {key : MemoKey} {peak : Peak} (hdone : (e.asked queries).memo.get? key = some (.done peak)) :
    ∃ before r, before ++ [r] <+: queries ∧ (e.asked before).Finds r key peak := by
  induction queries using List.reverseRecOn with
  | nil =>
    rw [asked, List.foldl_nil, hempty] at hdone
    cases hdone
  | append_singleton queries q ih =>
    rw [asked_concat] at hdone
    have hcases : (e.asked queries).memo.get? key = some (.done peak) ∨ (e.asked queries).Finds q key peak := by
      rcases (e.asked queries).reply_cases q with ⟨hsame, -⟩ | ⟨present, cell, hframe, hcell, hwalk⟩
      · rw [hsame] at hdone
        exact Or.inl hdone
      · exact (Sees.stop (s := opening _ q) ⟨⟨present, cell, hframe, hcell⟩, .refl⟩ hwalk).finds hdone
    rcases hcases with hold | hfound
    · obtain ⟨before, r, hearlier, hfound⟩ := ih hold
      exact ⟨before, r, hearlier.trans (List.prefix_append ..), hfound⟩
    · exact ⟨queries, q, List.prefix_refl _, hfound⟩

end Evaluator

open Evaluator

/-- Wherever the computation of a key begins, if it ends untainted then it finds what it would find with the same
peaks remembered, the same ticks imagined and closed, and nothing going on around it. Every peak that is remembered
at some point of a query was found so, by this query or one before it, and a query for it at the top would have
been answered with this peak at the moment when its computation began. -/
theorem History.untainted_as_alone (h : History) (queries : List Query) (q : Query) :
    (∀ fuel key c, (h.fresh.asked queries).Begins q fuel key c → Untainted fuel key c →
      AsAlone (fuel + 1) key c) ∧
    ∀ d key peak, (h.fresh.asked queries).Sees q d → d.memo.get? key = some (.done peak) →
      ∃ before r fuel c, before ++ [r] <+: queries ++ [q] ∧ (h.fresh.asked before).Begins r fuel key c ∧
        Untainted fuel key c ∧ c.AnswersAlone key peak := by
  have halone : ∀ {queries q fuel key c}, (h.fresh.asked queries).Begins q fuel key c →
      Untainted fuel key c → AsAlone (fuel + 1) key c := by
    intro queries q fuel key c hbegins huntainted
    have hstacked := hbegins.comes.stacked (idle_asked (idle_ofHistory ..) queries).stacked
    exact asAlone_of_untainted hstacked.layered hbegins.new huntainted
  refine ⟨fun fuel key c => halone, fun d key peak hsees hdone => ?_⟩
  have hfound : ∃ before r, before ++ [r] <+: queries ++ [q] ∧ (h.fresh.asked before).Finds r key peak := by
    rcases hsees.finds hdone with hold | hfound
    · obtain ⟨before, r, hearlier, hfound⟩ := exists_finds_of_asked (fun _ => rfl) queries hold
      exact ⟨before, r, hearlier.trans (List.prefix_append ..), hfound⟩
    · exact ⟨queries, q, List.prefix_refl _, hfound⟩
  obtain ⟨before, r, hearlier, fuel, c, hbegins, huntainted, hpeak⟩ := hfound
  have hclosed := (History.Asked.queries h (fun _ => false) before).closed
  exact ⟨before, r, fuel, c, hearlier, hbegins, huntainted,
    answersAlone (hbegins.comes.placed hclosed) (halone hbegins huntainted) hpeak⟩

/-- Cell 2 feeds cell 1. Cells 2 and 3 feed each other, and cell 3 is fed by cell 4, which is lit. -/
def looped : History where
  validate := true
  present := Circuit.initial.performAll true
    [.createCell .root .relay .origin, .createCell .root .relay .origin, .createCell .root .relay .origin,
      .createCell .root .relay .origin, .createWire ⟨2⟩ ⟨1⟩ .any .now, .createWire ⟨3⟩ ⟨2⟩ .any .now,
      .createWire ⟨2⟩ ⟨3⟩ .any .now, .createWire ⟨4⟩ ⟨3⟩ .any .now, .fireCell ⟨4⟩ .red]
  past := []
  future := []

/-- On the way to cell 1 the walk asks for cell 2 again, from cell 3. So cell 3 is not remembered, but cell 2 is. -/
theorem untainted_as_alone_looped :
    (∃ fuel c, looped.fresh.Begins ⟨⟨1⟩, .red, .now⟩ fuel ⟨0, ⟨2⟩, .red⟩ c ∧ c.depth = 1 ∧
      AsAlone (fuel + 1) ⟨0, ⟨2⟩, .red⟩ c) ∧
    (looped.fresh.next ⟨⟨1⟩, .red, .now⟩).memo.get? ⟨0, ⟨3⟩, .red⟩ = none ∧
    ∃ fuel c, looped.fresh.Begins ⟨⟨1⟩, .red, .now⟩ fuel ⟨0, ⟨2⟩, .red⟩ c ∧
      c.AnswersAlone ⟨0, ⟨2⟩, .red⟩ .raw := by
  obtain ⟨halone, hremembered⟩ := looped.untainted_as_alone [] ⟨⟨1⟩, .red, .now⟩
  have hcomes : ∀ {s}, Relation.ReflTransGen Stage.Calls (looped.fresh.opening ⟨⟨1⟩, .red, .now⟩) s →
      looped.fresh.ComesTo ⟨⟨1⟩, .red, .now⟩ s := fun hcalls => ⟨⟨_, _, rfl, rfl⟩, hcalls⟩
  have hbegins : looped.fresh.Begins ⟨⟨1⟩, .red, .now⟩ (looped.fresh.depthBound - 2) ⟨0, ⟨2⟩, .red⟩
      (looped.fresh.enter ⟨0, ⟨1⟩, .red⟩).counting :=
    ⟨hcomes (.head .stay (.head (.compute rfl) (.head (.gather rfl rfl rfl)
      (.head (.look rfl rfl rfl) (.single .stay))))), rfl⟩
  have hsees : looped.fresh.Sees ⟨⟨1⟩, .red, .now⟩ (looped.fresh.next ⟨⟨1⟩, .red, .now⟩) :=
    .stop (hcomes .refl) (walk_of_live (e := looped.fresh) ⟨⟨1⟩, .red, .now⟩ rfl rfl)
  refine ⟨⟨_, _, hbegins, rfl, halone _ _ _ hbegins rfl⟩, rfl, ?_⟩
  obtain ⟨before, r, fuel, c, hearlier, hfound, -, hanswers⟩ := hremembered _ ⟨0, ⟨2⟩, .red⟩ .raw hsees rfl
  -- the query is the only one
  obtain ⟨rfl, hrest⟩ : before = [] ∧ [r] <+: [⟨⟨1⟩, .red, .now⟩] := by
    cases before with
    | nil => exact ⟨rfl, hearlier⟩
    | cons q before =>
      have hlength := hearlier.length_le
      simp at hlength
  obtain ⟨rfl, -⟩ := List.cons_prefix_cons.mp hrest
  exact ⟨fuel, c, hfound, hanswers⟩

end PulseCircuit
