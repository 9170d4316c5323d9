import PulseCircuit.Proofs.Settling

/-!
# Raw pulses on loops

On a loop a walk asks for a key that is still pending and finds nothing there. Among calm keys this does no
harm. A raw pulse that is found is there, and where none is found, every way a raw pulse could have come
leads through a pending key that was asked for again (`Walk.calm`). When the outermost of these keys is
left, its way back to itself brings nothing new, so what is remembered then is right.
-/

namespace PulseCircuit

namespace Evaluator

/-! ## Pending keys that were asked for again -/

/-- Pending depths lie within the number of computations going on. -/
def Layered (e : Evaluator) : Prop := ∀ key depth, e.pendingDepth? key = some depth → depth < e.depth

theorem Layered.enter {e : Evaluator} (h : Layered e) (key : MemoKey) : Layered (e.enter key) := by
  intro other depth hpending
  show depth < e.depth + 1
  rw [pendingDepth?_enter] at hpending
  split at hpending
  next =>
    cases hpending
    exact Nat.lt_succ_self _
  next => exact Nat.lt_succ_of_lt (h other depth hpending)

theorem Restored.layered {e e' : Evaluator} (h : Restored e e') (hlayered : Layered e) :
    Layered e' := by
  intro key depth hpending
  rw [h.depth]
  rw [h.pending] at hpending
  exact hlayered key depth hpending

theorem outermost_le (outer : Nat) (other : Option Nat) :
    ∃ least, outermost (some outer) other = some least ∧ least ≤ outer := by
  cases other with
  | none => exact ⟨outer, rfl, Nat.le_refl _⟩
  | some depth => exact ⟨min outer depth, rfl, Nat.min_le_left ..⟩

theorem outermost_le_right (other : Option Nat) (outer : Nat) :
    ∃ least, outermost other (some outer) = some least ∧ least ≤ outer := by
  cases other with
  | none => exact ⟨outer, rfl, Nat.le_refl _⟩
  | some depth => exact ⟨min depth outer, rfl, Nat.min_le_right ..⟩

theorem reentered_leave (e : Evaluator) (key : MemoKey) (depth : Nat) (outer : Option Nat)
    (peak : Option Peak) :
    (e.leave key depth outer peak).reentered = outermost outer (taint depth e.reentered) := rfl

theorem reentered_reentering (e : Evaluator) (depth : Nat) :
    (e.reentering depth).reentered = outermost e.reentered (some depth) := rfl

/-- What was asked for again stays so. -/
theorem Walk.reentered_le {fuel : Nat} {task : Task} {e e' : Evaluator} {answer : Except Fault Peak}
    (h : Walk fuel task e answer e') {outer : Nat} (houter : e.reentered = some outer) :
    ∃ least, e'.reentered = some least ∧ least ≤ outer := by
  induction h generalizing outer with
  | again =>
    rw [reentered_reentering, houter]
    exact outermost_le outer _
  | descend _ _ _ =>
    rw [reentered_leave, houter]
    exact outermost_le outer _
  | gather _ _ _ _ ih => exact ih houter
  | skip _ _ _ ih => exact ih houter
  | broken _ _ _ _ ih => exact ih houter
  | settle _ _ _ _ _ ih => exact ih houter
  | proceed _ _ _ _ _ _ ihlook ihrest =>
    rcases ihlook houter with ⟨middle, hmiddle, hle⟩
    rcases ihrest hmiddle with ⟨least, hleast, hle'⟩
    exact ⟨least, hleast, Nat.le_trans hle' hle⟩
  | stay _ ih => exact ih houter
  | known _ _ _ _ ih => exact ih houter
  | imagine _ _ _ _ _ _ _ ih => exact ih houter
  | cut | reuse | frameless | absent | lost | stored | done | wireless | sourceless | deadEnd | adrift
  | unprojectable | stale => exact ⟨outer, houter, Nat.le_refl _⟩

/-- A pending key that may have been asked for again: it lies no further out than all that were. -/
def Suspect (e : Evaluator) (key : MemoKey) : Prop :=
  ∃ depth outer, e.pendingDepth? key = some depth ∧ e.reentered = some outer ∧ outer ≤ depth

theorem Walk.suspect {fuel : Nat} {task : Task} {e e' : Evaluator} {answer : Except Fault Peak}
    (h : Walk fuel task e answer e') {key : MemoKey} (hkey : Suspect e key) : Suspect e' key := by
  rcases hkey with ⟨depth, outer, hpending, houter, hle⟩
  rcases h.reentered_le houter with ⟨least, hleast, hle'⟩
  exact ⟨depth, least, by rw [h.restored.pending, hpending], hleast, Nat.le_trans hle' hle⟩

/-- A computation adds no suspects but itself, and an untainted one finds none but itself. -/
theorem Walk.suspect_leave {fuel : Nat} {task : Task} {e e' : Evaluator} {key : MemoKey}
    {answer : Except Fault Peak} (hbody : Walk fuel task (e.enter key) answer e')
    (hlayered : Layered e) {other : MemoKey} (hsuspect : Suspect e' other) :
    other = key ∨ (Suspect (e'.leave key e.depth e.reentered answer.toOption) other ∧
      taint e.depth e'.reentered ≠ none) := by
  rcases hsuspect with ⟨depth, outer, hpending, houter, hle⟩
  by_cases hkey : other = key
  · exact Or.inl hkey
  have hbefore := hpending
  -- the other key was pending before, so it lies further out, and so does what makes it a suspect
  rw [hbody.restored.pending, pendingDepth?_enter, if_neg hkey] at hbefore
  have hout : outer < e.depth := Nat.lt_of_le_of_lt hle (hlayered other depth hbefore)
  have htaint : taint e.depth e'.reentered = some outer := by
    rw [taint, houter, Option.filter_some, if_pos (by simpa using hout)]
  rcases outermost_le_right e.reentered outer with ⟨least, hleast, hle'⟩
  refine Or.inr ⟨⟨depth, least, ?_, ?_, Nat.le_trans hle' hle⟩, by simp [htaint]⟩
  · rw [pendingDepth?_leave, if_neg hkey, hpending]
  · rw [reentered_leave, htaint]
    exact hleast

/-! ## Remembered peaks -/

/-- What is remembered under a key is what the key settles on, if it settles. -/
def Remembers (T : Int → Prospect) (e : Evaluator) : Prop :=
  ∀ offset id colour peak, e.memo.get? ⟨offset, id, colour⟩ = some (.done peak) →
    ∀ n answer, Settles T n (.ask offset id colour) answer → answer = .ok peak

namespace Remembers

variable {T : Int → Prospect} {e : Evaluator}

theorem enter (h : Remembers T e) (key : MemoKey) : Remembers T (e.enter key) := by
  intro offset id colour peak hdone
  rw [get?_enter] at hdone
  split at hdone
  next => cases hdone
  next => exact h offset id colour peak hdone

theorem leave (h : Remembers T e) {offset : Int} {id : CellId} {colour : Colour} {depth : Nat}
    {outer : Option Nat} {answer : Except Fault Peak}
    (hright : ∀ peak, answer = .ok peak → taint depth e.reentered = none →
      ∀ n other, Settles T n (.ask offset id colour) other → other = .ok peak) :
    Remembers T (e.leave ⟨offset, id, colour⟩ depth outer answer.toOption) := by
  intro offset' id' colour' peak hdone
  rw [get?_leave] at hdone
  split at hdone
  next hkey =>
    cases hkey
    cases answer with
    | error fault => cases hdone
    | ok found =>
      cases htaint : taint depth e.reentered with
      | some outer => simp [Except.toOption, htaint] at hdone
      | none =>
        simp only [Except.toOption, htaint, Option.some.injEq, Memo.done.injEq] at hdone
        subst hdone
        exact hright found rfl htaint
  next => exact h offset' id' colour' peak hdone

end Remembers

/-! ## Walks among calm keys -/

def Task.tick : Task → Int
  | .ask offset _ _ => offset
  | .compute offset _ _ => offset
  | .fold _ offset _ _ _ _ => offset
  | .look offset _ _ _ => offset

theorem exists_frame?_imagining (e : Evaluator) (tick : Int) (c : Circuit) :
    ∃ frame, (e.imagining tick c).timeline.frame? tick = some frame := by
  rw [imagining]
  exact ⟨⟨.projected, c⟩, by rw [Timeline.frame?_imagine, if_pos rfl]⟩

/-- An evaluator whose knowledge is right, as far as the chart tells. -/
structure Honest (h : History) (sides : Timing → Bool) (e : Evaluator) : Prop where
  follows : Follows h sides e
  layered : Layered e
  remembers : Remembers (h.chart sides) e

namespace Honest

variable {h : History} {sides : Timing → Bool} {e : Evaluator}

theorem enter (hhonest : Honest h sides e) (key : MemoKey) : Honest h sides (e.enter key) :=
  ⟨hhonest.follows.of_same (sameTicks_enter ..), hhonest.layered.enter key, hhonest.remembers.enter key⟩

theorem counting (hhonest : Honest h sides e) : Honest h sides e.counting :=
  ⟨hhonest.follows.of_same (sameTicks_counting _), hhonest.layered, hhonest.remembers⟩

theorem imagining (hhonest : Honest h sides e) {side : Timing} (hside : side ≠ .now) {offset : Int}
    {current : Frame} (hcurrent : e.timeline.frame? offset = some current)
    (hnew : e.timeline.frame? (offset + side.step) = none) {c : Circuit}
    (htick : h.chart sides (offset + side.step) = .circuit c ∨
      h.chart sides (offset + side.step) = .unclear) :
    Honest h sides (e.imagining (offset + side.step) c) :=
  ⟨hhonest.follows.imagining hside hcurrent hnew htick, hhonest.layered, hhonest.remembers⟩

/-- After a walk only what is remembered can have become wrong. -/
theorem walk (hhonest : Honest h sides e) {fuel : Nat} {task : Task} {e' : Evaluator}
    {answer : Except Fault Peak} (hwalk : Walk fuel task e answer e')
    (hstraight : Straight sides e') (hremembers : Remembers (h.chart sides) e') :
    Honest h sides e' :=
  ⟨hwalk.follows hhonest.follows hstraight, hwalk.restored.layered hhonest.layered, hremembers⟩

/-- Where the chart shows a circuit, the evaluator has this circuit. -/
theorem circuit_eq (hhonest : Honest h sides e) {tick : Int} {c : Circuit} {frame : Frame}
    (hsight : h.chart sides tick = .circuit c) (hframe : e.timeline.frame? tick = some frame) :
    frame.circuit = c := by
  rcases hhonest.follows.frame tick frame hframe with hchart | hchart
  · rw [hsight] at hchart
    cases hchart
    rfl
  · rw [hsight] at hchart
    cases hchart

/-- Where a calm key is computed, the chart shows the circuit it is computed in. -/
theorem sight_of_calm (hhonest : Honest h sides e) {keys : List MemoKey}
    (hcalm : Calm (h.chart sides) keys) {offset : Int} {id : CellId} {colour : Colour}
    (hkey : ⟨offset, id, colour⟩ ∈ keys) {frame : Frame}
    (hframe : e.timeline.frame? offset = some frame) :
    h.chart sides offset = .circuit frame.circuit := by
  rcases hcalm _ hkey with ⟨c, hsight, -⟩
  rw [hhonest.circuit_eq hsight hframe]
  exact hsight

end Honest

/-- What raw pulses make of a calm task, or a walk that was cut off. -/
def WeighedOrCut (T : Int → Prospect) (keys : List MemoKey) (fuel : Nat) (task : Task)
    (e : Evaluator) (answer : Except Fault Peak) (e' : Evaluator) : Prop :=
  Weighed T (Suspect e') task answer ∨
    (fuel ≤ room keys e ∧ ∃ id, answer = .error (.endless id))

section Calming

variable {h : History} {sides : Timing → Bool} {keys : List MemoKey}

theorem Weighed.restrict {T : Int → Prospect} {avoid : MemoKey → Prop} {task : Task}
    {answer : Except Fault Peak} (h : Weighed T anywhere task answer) :
    Weighed T avoid task answer :=
  h.imp_right fun hnothing => ⟨hnothing.1, fun hcarries => hnothing.2 hcarries.unrestricted⟩

/-- What is remembered under a calm key is what raw pulses make of it. -/
theorem Remembers.weighed {T : Int → Prospect} (hcalm : Calm T keys) {e : Evaluator}
    (hremembers : Remembers T e) {offset : Int} {id : CellId} {colour : Colour} {peak : Peak}
    (hkey : ⟨offset, id, colour⟩ ∈ keys)
    (hdone : e.memo.get? ⟨offset, id, colour⟩ = some (.done peak)) :
    Weighed T anywhere (.ask offset id colour) (.ok peak) := by
  by_cases hcarries : Carries T anywhere (.ask offset id colour)
  · have hsettles := Settles.carried hcalm hkey (Nat.lt_succ_self _) hcarries
    exact Or.inl ⟨(hremembers offset id colour peak hdone _ _ hsettles).symm, hcarries⟩
  · have hsettles := Settles.quiet hcalm hkey (Nat.lt_succ_self _) hcarries
    exact Or.inr ⟨(hremembers offset id colour peak hdone _ _ hsettles).symm, hcarries⟩

/-- What is weighed without avoiding anything may be remembered. -/
theorem Weighed.unique {T : Int → Prospect} (hcalm : Calm T keys) {offset : Int} {id : CellId}
    {colour : Colour} {answer : Except Fault Peak} (hkey : ⟨offset, id, colour⟩ ∈ keys)
    (hweighed : Weighed T anywhere (.ask offset id colour) answer) {n : Nat}
    {other : Except Fault Peak} (hsettles : Settles T n (.ask offset id colour) other) :
    other = answer := by
  rcases hweighed with ⟨rfl, hyes⟩ | ⟨rfl, hno⟩
  · rcases hsettles.calm hcalm hkey with ⟨hother, -⟩ | ⟨-, hnot⟩
    · exact hother
    · exact absurd hyes hnot
  · rcases hsettles.calm hcalm hkey with ⟨-, hyes⟩ | ⟨hother, -⟩
    · exact absurd hyes hno
    · exact hother

/-- The step that matters: a key is left, and the pulses that come back to it bring nothing new. -/
theorem Walk.leave_calm (hcalm : Calm (h.chart sides) keys) {fuel : Nat} {e e' : Evaluator}
    {offset : Int} {id : CellId} {colour : Colour} {answer : Except Fault Peak}
    (hkey : ⟨offset, id, colour⟩ ∈ keys) (hnew : e.memo.get? ⟨offset, id, colour⟩ = none)
    (hbody : Walk fuel (.compute offset id colour) (e.enter ⟨offset, id, colour⟩) answer e')
    (hlayered : Layered e) (hremembers : Remembers (h.chart sides) e')
    (houtcome : WeighedOrCut (h.chart sides) keys fuel (.compute offset id colour)
      (e.enter ⟨offset, id, colour⟩) answer e') :
    WeighedOrCut (h.chart sides) keys (fuel + 1) (.ask offset id colour) e answer
        (e'.leave ⟨offset, id, colour⟩ e.depth e.reentered answer.toOption) ∧
      Remembers (h.chart sides)
        (e'.leave ⟨offset, id, colour⟩ e.depth e.reentered answer.toOption) := by
  rcases houtcome with (⟨rfl, hcarries⟩ | ⟨rfl, hnot⟩) | ⟨hroom, x, rfl⟩
  · have hyes := Carries.anywhere_ask_iff.mpr hcarries
    refine ⟨Or.inl (Or.inl ⟨rfl, hyes⟩), hremembers.leave ?_⟩
    intro peak hpeak _ n other hsettles
    cases hpeak
    exact Weighed.unique hcalm hkey (Or.inl ⟨rfl, hyes⟩) hsettles
  · -- a pulse that comes back to the key has a way from it that does not, and that way is held up
    have hno : ¬ Carries (h.chart sides)
        (Suspect (e'.leave ⟨offset, id, colour⟩ e.depth e.reentered (some .nothing)))
        (.ask offset id colour) := by
      intro hcarries
      apply hnot
      refine hcarries.compute_of_ask.mono fun other hother => ?_
      exact (hbody.suspect_leave hlayered hother).imp_right And.left
    refine ⟨Or.inl (Or.inr ⟨rfl, hno⟩), hremembers.leave ?_⟩
    intro peak hpeak htaint n other hsettles
    cases hpeak
    -- an untainted key is its own only suspect
    have hnever : ¬ Carries (h.chart sides) anywhere (.ask offset id colour) := by
      intro hcarries
      apply hnot
      refine hcarries.compute_of_ask.mono fun other hother => ?_
      rcases hbody.suspect_leave hlayered hother with hsame | ⟨-, htainted⟩
      · exact Or.inl hsame
      · exact absurd htaint htainted
    exact Weighed.unique hcalm hkey (Or.inr ⟨rfl, hnever⟩) hsettles
  · have hlt := room_enter hkey hnew
    refine ⟨Or.inr ⟨by omega, x, rfl⟩, hremembers.leave ?_⟩
    intro peak hpeak
    cases hpeak

/-- A pending key that is asked for again is held up: it is its own suspect. -/
theorem WeighedOrCut.again {T : Int → Prospect} {fuel : Nat} {e : Evaluator} {offset : Int} {id : CellId}
    {colour : Colour} {depth : Nat}
    (hpending : e.memo.get? ⟨offset, id, colour⟩ = some (.pending depth)) :
    WeighedOrCut T keys fuel (.ask offset id colour) e (.ok .nothing) (e.reentering depth) := by
  refine Or.inl (Or.inr ⟨rfl, ?_⟩)
  intro hcarries
  cases hcarries with
  | ask hopen _ =>
    rcases outermost_le_right e.reentered depth with ⟨least, hleast, hle⟩
    have hdepth : e.pendingDepth? ⟨offset, id, colour⟩ = some depth := by
      rw [pendingDepth?, hpending]
    exact hopen ⟨depth, least, hdepth, hleast, hle⟩

/-- A walk that goes on as another task comes to the same as this one, if a raw pulse gets to both or to
neither of them. -/
theorem WeighedOrCut.of_iff {T : Int → Prospect} {fuel : Nat} {task sub : Task} {e e₀ e' : Evaluator}
    {answer : Except Fault Peak} (h : WeighedOrCut T keys fuel sub e₀ answer e')
    (hpending : ∀ key, e₀.pendingDepth? key = e.pendingDepth? key)
    (hiff : ∀ avoid, Carries T avoid task ↔ Carries T avoid sub) :
    WeighedOrCut T keys fuel task e answer e' := by
  have hroom : room keys e = room keys e₀ := by
    simp only [room, hpending]
  rw [WeighedOrCut, Weighed, hiff, hiff, hroom]
  exact h

section Inputs

variable {T : Int → Prospect} {fuel : Nat} {offset : Int} {colour : Colour} {c : Circuit}
  {target source : Cell} {input : WireId} {inputs : List WireId} {wire : Wire} {peak next : Peak}
  {e e' e'' : Evaluator} {answer : Except Fault Peak}

/-- Raw pulses break nothing, so an input that broke was cut off, and with it all that waits for it. -/
theorem WeighedOrCut.broken {task : Task} {fault : Fault}
    (h : WeighedOrCut T keys fuel (.look offset source.id colour wire.timing.flip) e (.error fault) e') :
    WeighedOrCut T keys fuel task e (.error fault) e' := by
  rcases h with (⟨hanswer, -⟩ | ⟨hanswer, -⟩) | hcut
  · cases hanswer
  · cases hanswer
  · exact Or.inr hcut

/-- An input that was answered was not cut off. -/
theorem WeighedOrCut.weighed {task : Task} (h : WeighedOrCut T keys fuel task e (.ok next) e') :
    Weighed T (Suspect e') task (.ok next) := by
  rcases h with hweighed | ⟨-, x, hcut⟩
  · exact hweighed
  · cases hcut

/-- Suspects stay suspects, so what held up the first input is still there when the others are through. -/
theorem Walk.proceed_calm (htask : CalmTask T keys (.fold c offset target colour (input :: inputs) peak))
    (hwire : c.wire input = .ok wire) (hadmits : wire.colour.admits colour = true)
    (hsource : c.cell wire.source = .ok source)
    (hlook : Walk fuel (.look offset source.id colour wire.timing.flip) e (.ok next) e')
    (hrest : Walk fuel (.fold c offset target colour inputs (peak.fold next ⟨source, target, wire⟩))
      e' answer e'')
    (hfirst : Weighed T (Suspect e') (.look offset source.id colour wire.timing.flip) (.ok next))
    (hothers : WeighedOrCut T keys fuel (.fold c offset target colour inputs
      (peak.fold next ⟨source, target, wire⟩)) e' answer e'') :
    WeighedOrCut T keys fuel (.fold c offset target colour (input :: inputs) peak) e answer e'' := by
  rcases hothers with hweighed | ⟨hroom, hcut⟩
  · exact Or.inl (hfirst.proceed htask hwire hadmits hsource (fun _ hkey => hrest.suspect hkey) hweighed)
  · rw [hlook.restored.room_eq] at hroom
    exact Or.inr ⟨hroom, hcut⟩

end Inputs

/-- Among calm keys a walk finds a raw pulse only where one gets through, and finds nothing only where each
way for one is held up at a pending key. What is remembered stays right. -/
theorem Walk.calm (hcalm : Calm (h.chart sides) keys) {fuel : Nat} {task : Task} {e e' : Evaluator}
    {answer : Except Fault Peak} (hwalk : Walk fuel task e answer e')
    (htask : CalmTask (h.chart sides) keys task)
    (hframe : ∃ frame, e.timeline.frame? task.tick = some frame) (hhonest : Honest h sides e)
    (hstraight : Straight sides e') :
    WeighedOrCut (h.chart sides) keys fuel task e answer e' ∧ Remembers (h.chart sides) e' := by
  induction hwalk with
  | cut => exact ⟨Or.inr ⟨Nat.zero_le _, _, rfl⟩, hhonest.remembers⟩
  | reuse hdone =>
    exact ⟨Or.inl (hhonest.remembers.weighed hcalm htask hdone).restrict, hhonest.remembers⟩
  | again hpending => exact ⟨.again hpending, hhonest.remembers⟩
  | descend hnew hbody ih =>
    rcases ih htask hframe (hhonest.enter _) hstraight with ⟨houtcome, hremembers⟩
    exact hbody.leave_calm hcalm htask hnew hhonest.layered hremembers houtcome
  | frameless hnone =>
    -- a calm key lies in a tick that is there
    exact absurd hnone (Option.ne_none_iff_exists'.mpr hframe)
  | absent hsome hcell _ =>
    have hsight := hhonest.sight_of_calm hcalm htask hsome
    exact ⟨Or.inl (Or.inr ⟨rfl, Carries.not_compute hsight hcell⟩), hhonest.remembers⟩
  | lost hsome hcell hhere =>
    have hsight := hhonest.sight_of_calm hcalm htask hsome
    rcases hcalm.missing htask hsight hcell with ⟨hoffset, missing, hmissing⟩
    exact absurd hmissing (hhere.resolve_left hoffset missing)
  | stored hsome hcell hfinal =>
    have hsight := hhonest.sight_of_calm hcalm htask hsome
    rw [isFinal_of_calm (hcalm.fold htask hsight hcell).1] at hfinal
    cases hfinal
  | gather hsome hcell _ _ ih =>
    have hsight := hhonest.sight_of_calm hcalm htask hsome
    rcases ih (hcalm.fold htask hsight hcell) hframe hhonest.counting hstraight with
      ⟨houtcome, hremembers⟩
    exact ⟨houtcome.of_iff (fun _ => rfl) fun _ => Carries.compute_iff hsight hcell, hremembers⟩
  | done => exact ⟨Or.inl (.done htask), hhonest.remembers⟩
  | wireless hwire => exact absurd hwire htask.head.wire_ne_error
  | skip hwire hadmits _ ih =>
    rcases ih (htask.tail htask.1) hframe hhonest hstraight with ⟨houtcome, hremembers⟩
    exact ⟨houtcome.of_iff (fun _ => rfl) fun _ => Carries.skip_iff hwire hadmits, hremembers⟩
  | sourceless hwire hadmits hsource =>
    exact absurd hsource (htask.head.source_ne_error hwire hadmits)
  | broken hwire hadmits hsource _ ih =>
    rcases htask.head.look hwire hadmits hsource with ⟨-, hlook⟩
    rcases ih hlook hframe hhonest hstraight with ⟨houtcome, hremembers⟩
    exact ⟨houtcome.broken, hremembers⟩
  | settle hwire hadmits hsource _ hfinal ih =>
    rcases htask.head.look hwire hadmits hsource with ⟨-, hlook⟩
    rcases ih hlook hframe hhonest hstraight with ⟨houtcome, -⟩
    rw [isFinal_of_calm (houtcome.weighed.rest htask hwire hadmits hsource).1] at hfinal
    cases hfinal
  | proceed hwire hadmits hsource hlookwalk _ hrestwalk ihlook ihrest =>
    rcases htask.head.look hwire hadmits hsource with ⟨-, hlook⟩
    have hmiddle := hrestwalk.grows.straight hstraight
    rcases ihlook hlook hframe hhonest hmiddle with ⟨houtcome, hremembers⟩
    have hhonest' := hhonest.walk hlookwalk hmiddle hremembers
    have hframe' := hframe.imp fun frame hsome => hlookwalk.grows.frame _ frame hsome
    have hfirst := houtcome.weighed
    rcases ihrest (hfirst.rest htask hwire hadmits hsource) hframe' hhonest' hstraight with
      ⟨hothers, hremembers'⟩
    exact ⟨hlookwalk.proceed_calm htask hwire hadmits hsource hrestwalk hfirst hothers, hremembers'⟩
  | stay _ ih =>
    rename_i offset id colour _ _
    have hstep : offset + Timing.now.step = offset := Int.add_zero offset
    rcases hframe with ⟨frame, hsome⟩
    have hchart := hhonest.follows.frame _ frame hsome
    rw [Task.tick, ← hstep] at hchart
    rcases htask.onward hchart with ⟨hsight, hkey⟩
    have hiff : ∀ avoid, Carries (h.chart sides) avoid (.look offset id colour .now) ↔
        Carries (h.chart sides) avoid (.ask (offset + Timing.now.step) id colour) :=
      fun _ => Carries.look_iff hsight
    rw [hstep] at hkey hiff
    rcases ih hkey ⟨frame, hsome⟩ hhonest hstraight with ⟨houtcome, hremembers⟩
    exact ⟨houtcome.of_iff (fun _ => rfl) hiff, hremembers⟩
  | deadEnd _ hdead =>
    -- a closed tick that the chart is clear about is a dead end there too
    have hsight := htask.deadEnd (hhonest.follows.dead _ hdead)
    exact ⟨Or.inl (Or.inr ⟨rfl, Carries.not_look hsight⟩), hhonest.remembers⟩
  | known _ _ hsome _ ih =>
    rcases htask.onward (hhonest.follows.frame _ _ hsome) with ⟨hsight, hkey⟩
    rcases ih hkey ⟨_, hsome⟩ hhonest hstraight with ⟨houtcome, hremembers⟩
    exact ⟨houtcome.of_iff (fun _ => rfl) fun _ => Carries.look_iff hsight, hremembers⟩
  | adrift _ _ _ hnone => exact absurd hnone (Option.ne_none_iff_exists'.mpr hframe)
  | unprojectable htiming _ hnew hcurrent hproject =>
    exact absurd (hhonest.follows.unprojectable htiming hcurrent hnew hproject) htask.projectable
  | stale htiming _ hnew hcurrent hproject hstale =>
    have hsight := htask.deadEnd
      (hhonest.follows.stale htiming hcurrent hnew hproject hstale hstraight)
    exact ⟨Or.inl (Or.inr ⟨rfl, Carries.not_look hsight⟩), hhonest.remembers⟩
  | imagine htiming _ hnew hcurrent hproject hfresh _ ih =>
    have htick := hhonest.follows.imagine htiming hcurrent hnew hproject hfresh
    rcases htask.onward htick with ⟨hsight, hkey⟩
    have hhonest' := hhonest.imagining htiming hcurrent hnew htick
    rcases ih hkey (exists_frame?_imagining _ _ _) hhonest' hstraight with ⟨houtcome, hremembers⟩
    exact ⟨houtcome.of_iff (fun _ => rfl) fun _ => Carries.look_iff hsight, hremembers⟩

end Calming

end Evaluator

end PulseCircuit
