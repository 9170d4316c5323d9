import PulseCircuit.Proofs.Bounds

/-!
# Charts

An evaluator imagines a tick when a question gets there, so which ticks it has, and which of them it has
closed, depends on what it was asked. A chart says what each tick shows before anything is asked.

There is one thing a chart cannot say. If nothing is recorded around the present, both neighbours of the
present are projected from it, so whichever is imagined first closes the other one. A chart therefore shows
only the sides it is told to trust.

* `History.chart`: what each tick shows;
* `Straight`: no trusted neighbour of the present was closed on account of the other one;
* `Walk.follows`: an evaluator keeps to the chart as long as it is straight.
-/

namespace PulseCircuit

/-- What a tick shows. -/
inductive Prospect where
  | circuit (c : Circuit)
  /-- Nothing new. -/
  | deadEnd
  /-- It cannot be projected. -/
  | fault (fault : Fault)
  /-- It may be any of these, depending on what is asked first. -/
  | unclear

namespace Circuit

/-- What the next tick shows, with another tick behind the current one. -/
def onward (validate : Bool) (behind : Option Circuit) (current : Circuit) : Prospect :=
  match current.project validate with
  | .error fault => .fault fault
  | .ok projected =>
    if projected.sameState current || behind.any projected.sameState then .deadEnd
    else .circuit projected

/-- What is shown some ticks ahead, where the nearest ticks are given and the others are projected. -/
def ahead (validate : Bool) : Option Circuit → Circuit → List Circuit → Nat → Prospect
  | _, current, _, 0 => .circuit current
  | _, current, next :: given, n + 1 => ahead validate (some current) next given n
  | behind, current, [], n + 1 =>
    match current.onward validate behind with
    | .circuit next => ahead validate (some current) next [] n
    | other => other

theorem ahead_of_given {validate : Bool} {behind : Option Circuit} {current c : Circuit}
    {given : List Circuit} {n : Nat} (h : (current :: given)[n]? = some c) :
    ahead validate behind current given n = .circuit c := by
  induction given generalizing behind current n with
  | nil =>
    cases n with
    | zero =>
      cases h
      rfl
    | succ n => simp at h
  | cons next given ih =>
    cases n with
    | zero =>
      cases h
      rfl
    | succ n => exact ih h

theorem onward_ne_unclear (validate : Bool) (behind : Option Circuit) (current : Circuit) :
    current.onward validate behind ≠ .unclear := by
  rw [onward]
  split
  · simp
  · split <;> simp

theorem ahead_ne_unclear (validate : Bool) (behind : Option Circuit) (current : Circuit)
    (given : List Circuit) (n : Nat) : ahead validate behind current given n ≠ .unclear := by
  induction n generalizing behind current given with
  | zero => simp [ahead]
  | succ n ih =>
    cases given with
    | cons next given => exact ih _ _ _
    | nil =>
      rw [ahead]
      cases hnext : current.onward validate behind with
      | circuit next => exact ih _ _ _
      | deadEnd | fault => simp
      | unclear => exact absurd hnext (onward_ne_unclear _ _ _)

/-- Beyond the given ticks each tick is projected from the one before. -/
theorem ahead_succ {validate : Bool} {start behind : Option Circuit} {present current : Circuit}
    {given : List Circuit} {n : Nat} (hn : given.length ≤ n)
    (hcurrent : ahead validate start present given n = .circuit current)
    (hbehind : (n = 0 ∧ behind = start) ∨
      ∃ m c, n = m + 1 ∧ ahead validate start present given m = .circuit c ∧ behind = some c) :
    ahead validate start present given (n + 1) = current.onward validate behind := by
  induction n generalizing start present given with
  | zero =>
    rcases hbehind with ⟨-, rfl⟩ | ⟨m, c, hm, -⟩
    · obtain rfl : given = [] := List.length_eq_zero_iff.mp (Nat.le_zero.mp hn)
      cases hcurrent
      rw [ahead]
      cases hnext : current.onward validate behind <;> rfl
    · cases hm
  | succ n ih =>
    -- the first tick is taken off, and is behind what comes next
    have hbehind' : ∃ c, ahead validate start present given n = .circuit c ∧ behind = some c := by
      rcases hbehind with ⟨hzero, -⟩ | ⟨m, c, hm, hc, hsame⟩
      · cases hzero
      · cases hm
        exact ⟨c, hc, hsame⟩
    rcases hbehind' with ⟨c, hc, rfl⟩
    cases given with
    | cons next given =>
      rw [ahead] at hcurrent
      rw [ahead]
      refine ih (Nat.le_of_succ_le_succ hn) hcurrent ?_
      cases n with
      | zero =>
        cases hc
        exact Or.inl ⟨rfl, rfl⟩
      | succ m => exact Or.inr ⟨m, c, rfl, hc, rfl⟩
    | nil =>
      rw [ahead] at hcurrent
      rw [ahead]
      cases hnext : present.onward validate start with
      | circuit next =>
        simp only [hnext] at hcurrent
        refine ih (Nat.zero_le _) hcurrent ?_
        cases n with
        | zero =>
          cases hc
          exact Or.inl ⟨rfl, rfl⟩
        | succ m =>
          rw [ahead, hnext] at hc
          exact Or.inr ⟨m, c, rfl, hc, rfl⟩
      | deadEnd => simp only [hnext, reduceCtorEq] at hcurrent
      | fault fault => simp only [hnext, reduceCtorEq] at hcurrent
      | unclear => simp only [hnext, reduceCtorEq] at hcurrent

end Circuit

/-- What an evaluator is made for. -/
structure History where
  validate : Bool
  present : Circuit
  past : List Circuit
  future : List Circuit

/-- The side of the present on which a tick lies. -/
def sideOf (tick : Int) : Timing :=
  if tick < 0 then .past else if 0 < tick then .future else .now

namespace History

/-- The evaluator that was not asked anything. -/
def fresh (h : History) : Evaluator := .ofHistory h.validate h.present h.past h.future

/-- The circuits recorded in one direction, nearest first. -/
def given (h : History) : Timing → List Circuit
  | .past => h.past
  | .now => []
  | .future => h.future

/-- What is shown some ticks to one side of the present. -/
def aside (h : History) (side : Timing) : Nat → Prospect :=
  Circuit.ahead h.validate (h.given side.flip).head? h.present (h.given side)

/-- What a tick shows, on the trusted sides of the present. -/
def chart (h : History) (sides : Timing → Bool) (tick : Int) : Prospect :=
  if tick = 0 ∨ sides (sideOf tick) = true then h.aside (sideOf tick) tick.natAbs else .unclear

end History

/-! ## Ticks on one side -/

theorem sideOf_step {side : Timing} (hside : side ≠ .now) (n : Nat) :
    sideOf (side.step * (n + 1 : Nat)) = side := by
  cases side with
  | now => exact absurd rfl hside
  | past => exact if_pos (by simp only [Timing.step]; omega)
  | future =>
    have hpos : 0 < Timing.future.step * ((n + 1 : Nat) : Int) := by
      simp only [Timing.step]
      omega
    rw [sideOf, if_neg (by omega), if_pos hpos]

theorem natAbs_step {side : Timing} (hside : side ≠ .now) (n : Nat) :
    (side.step * (n : Int)).natAbs = n := by
  cases side with
  | now => exact absurd rfl hside
  | past | future =>
    simp only [Timing.step]
    omega

theorem step_succ (side : Timing) (n : Nat) :
    side.step * ((n + 1 : Nat) : Int) = side.step * (n : Int) + side.step := by
  cases side <;> simp only [Timing.step] <;> omega

/-- Every tick lies some steps to a side, or some steps to the other one. -/
theorem exists_steps {side : Timing} (hside : side ≠ .now) (tick : Int) :
    (∃ n : Nat, tick = side.step * n) ∨ ∃ n : Nat, tick = side.flip.step * (n + 1 : Nat) := by
  have hsign : ∃ n : Nat, tick = n ∨ tick = -((n + 1 : Nat) : Int) := by
    rcases Int.lt_or_le tick 0 with hneg | hpos
    · exact ⟨(-tick).toNat - 1, Or.inr (by omega)⟩
    · exact ⟨tick.toNat, Or.inl (by omega)⟩
  rcases hsign with ⟨n, rfl | rfl⟩
  · cases side with
    | now => exact absurd rfl hside
    | future => exact Or.inl ⟨n, by simp only [Timing.step]; omega⟩
    | past =>
      cases n with
      | zero => exact Or.inl ⟨0, rfl⟩
      | succ n => exact Or.inr ⟨n, by simp only [Timing.flip, Timing.step]; omega⟩
  · cases side with
    | now => exact absurd rfl hside
    | past => exact Or.inl ⟨n + 1, by simp only [Timing.step]; omega⟩
    | future => exact Or.inr ⟨n, by simp only [Timing.flip, Timing.step]; omega⟩

namespace History

variable {h : History} {sides : Timing → Bool} {side : Timing}

theorem chart_of_trusted (hside : side ≠ .now) (htrusted : sides side = true) (n : Nat) :
    h.chart sides (side.step * n) = h.aside side n := by
  cases n with
  | zero => cases side <;> rfl
  | succ n =>
    rw [chart, sideOf_step hside, natAbs_step hside, if_pos (Or.inr htrusted)]

theorem chart_of_untrusted (hside : side ≠ .now) (huntrusted : sides side = false) (n : Nat) :
    h.chart sides (side.step * (n + 1 : Nat)) = .unclear := by
  have hfar : side.step * ((n + 1 : Nat) : Int) ≠ 0 := by
    intro hzero
    have habs := natAbs_step hside (n + 1)
    rw [hzero] at habs
    cases habs
  rw [chart, sideOf_step hside, if_neg]
  rintro (hzero | htrusted)
  · exact hfar hzero
  · rw [huntrusted] at htrusted
    cases htrusted

theorem frame?_fresh_eq (h : History) (tick : Int) : h.fresh.timeline.frame? tick =
    if -(h.past.length : Int) ≤ tick ∧ tick ≤ h.future.length then
      some ⟨.given, givenAt h.present h.past h.future tick⟩
    else none :=
  Timeline.frame?_ofHistory h.present h.past h.future tick

theorem getElem?_given (h : History) {n : Nat} (hn : n ≤ (h.given side).length) :
    (h.present :: h.given side)[n]? =
      some (lastGiven h.present ((h.given side).take n)) := by
  cases n with
  | zero => rfl
  | succ n =>
    rw [List.getElem?_cons_succ]
    exact getElem?_eq_lastGiven hn h.present

/-- The given circuits are in their ticks from the beginning. -/
theorem frame?_fresh (h : History) (hside : side ≠ .now) {n : Nat}
    (hn : n ≤ (h.given side).length) :
    ∃ c, (h.present :: h.given side)[n]? = some c ∧
      h.fresh.timeline.frame? (side.step * n) = some ⟨.given, c⟩ := by
  refine ⟨_, h.getElem?_given hn, ?_⟩
  rw [frame?_fresh_eq]
  cases side with
  | now => exact absurd rfl hside
  | past =>
    simp only [given] at hn
    have hback : (-(Timing.past.step * (n : Int))).toNat = n := by
      simp only [Timing.step]
      omega
    rw [if_pos (by simp only [Timing.step]; omega), givenAt, hback]
    split
    next => rfl
    next hzero =>
      obtain rfl : n = 0 := by
        simp only [Timing.step] at hzero
        omega
      rfl
  | future =>
    simp only [given] at hn
    have hforth : (Timing.future.step * (n : Int)).toNat = n := by
      simp only [Timing.step]
      omega
    rw [if_pos (by simp only [Timing.step]; omega), givenAt, hforth,
      if_neg (by simp only [Timing.step]; omega)]
    rfl

theorem present_frame (h : History) : h.fresh.timeline.frame? 0 = some ⟨.given, h.present⟩ := by
  rcases h.frame?_fresh (by decide : Timing.future ≠ .now) (Nat.zero_le _) with ⟨c, hc, hframe⟩
  cases hc
  exact hframe

theorem le_of_frame?_fresh (h : History) (hside : side ≠ .now) {n : Nat} {frame : Frame}
    (hframe : h.fresh.timeline.frame? (side.step * n) = some frame) :
    n ≤ (h.given side).length := by
  rw [frame?_fresh_eq] at hframe
  split at hframe
  next hin =>
    cases side with
    | now => exact absurd rfl hside
    | past | future =>
      simp only [Timing.step] at hin
      simp only [given]
      omega
  next => cases hframe

end History

namespace Evaluator

/-! ## Evaluators that know more -/

/-- What an evaluator has imagined or closed stays, and it may go no less deep. -/
structure Grows (e e' : Evaluator) : Prop where
  frame : ∀ tick frame, e.timeline.frame? tick = some frame → e'.timeline.frame? tick = some frame
  dead : ∀ tick ∈ e.deadEnds, tick ∈ e'.deadEnds
  depthBound : e.depthBound ≤ e'.depthBound

namespace Grows

theorem refl (e : Evaluator) : Grows e e := ⟨fun _ _ h => h, fun _ h => h, Nat.le_refl _⟩

theorem trans {e e' e'' : Evaluator} (h : Grows e e') (h' : Grows e' e'') : Grows e e'' where
  frame tick frame hframe := h'.frame tick frame (h.frame tick frame hframe)
  dead tick hdead := h'.dead tick (h.dead tick hdead)
  depthBound := Nat.le_trans h.depthBound h'.depthBound

end Grows

theorem depthBound_le_imagining (e : Evaluator) {tick : Int} (hnew : e.timeline.frame? tick = none)
    (c : Circuit) : e.depthBound ≤ (e.imagining tick c).depthBound := by
  have hkeys : tick ∉ e.timeline.frames.keys := Table.get?_eq_none_iff.mp hnew
  have hrows : (e.timeline.frames.insert tick ⟨.projected, c⟩).rows =
      e.timeline.frames.rows ++ [(tick, ⟨.projected, c⟩)] := by
    rw [Table.insert, dif_neg hkeys]
    rfl
  have hsize : (e.imagining tick c).timeline.frames.size = e.timeline.frames.size + 1 := by
    show ((e.timeline.frames.insert tick ⟨.projected, c⟩).rows).length = _
    rw [hrows, List.length_append]
    rfl
  have hwidth : e.timeline.width ≤ (e.imagining tick c).timeline.width := by
    show _ ≤ ((e.timeline.frames.insert tick ⟨.projected, c⟩).rows.map Prod.snd).foldl _ 0
    rw [hrows, List.map_append, List.foldl_append]
    exact Nat.le_max_left ..
  rw [depthBound, depthBound, hsize]
  exact Nat.mul_le_mul (by omega) (by omega)

theorem grows_imagining (e : Evaluator) {tick : Int} (hnew : e.timeline.frame? tick = none)
    (c : Circuit) : Grows e (e.imagining tick c) where
  frame k frame hframe := by
    have hne : k ≠ tick := by
      rintro rfl
      rw [hnew] at hframe
      cases hframe
    rw [imagining, Timeline.frame?_imagine, if_neg hne]
    exact hframe
  dead _ hdead := hdead
  depthBound := e.depthBound_le_imagining hnew c

theorem grows_closing (e : Evaluator) (tick : Int) : Grows e (e.closing tick) :=
  ⟨fun _ _ hframe => hframe, fun _ hdead => List.mem_cons_of_mem _ hdead, Nat.le_refl _⟩

theorem grows_of_same {e e' : Evaluator} (h : SameTicks e e') : Grows e e' where
  frame _ _ hframe := h.timeline ▸ hframe
  dead _ hdead := h.deadEnds ▸ hdead
  depthBound := Nat.le_of_eq (by rw [depthBound, depthBound, h.timeline])

theorem Walk.grows {fuel : Nat} {task : Task} {e e' : Evaluator} {answer : Except Fault Peak}
    (h : Walk fuel task e answer e') : Grows e e' := by
  refine h.keeps (P := Grows e) ⟨?_, ?_, ?_⟩ (.refl e)
  · rintro e' e'' hsame hgrows
    exact hgrows.trans (grows_of_same hsame)
  · rintro e' offset timing current projected - - hgrows
    exact hgrows.trans (grows_closing e' _)
  · rintro e' offset timing current projected hnext - hgrows
    exact hgrows.trans (grows_imagining e' hnext.new projected)

/-- All frames show circuits of one kind. -/
def Throughout (P : Circuit → Prop) (e : Evaluator) : Prop :=
  ∀ tick frame, e.timeline.frame? tick = some frame → P frame.circuit

theorem throughout_ofHistory {P : Circuit → Prop} {present : Circuit} {past future : List Circuit}
    (hgiven : ∀ c ∈ present :: (past ++ future), P c) (validate : Bool) :
    Throughout P (ofHistory validate present past future) :=
  fun _ _ hframe => hgiven _ (Timeline.given_of_frame? hframe)

theorem Throughout.imagining {P : Circuit → Prop} {e : Evaluator} (h : Throughout P e) {c : Circuit}
    (hc : P c) (tick : Int) : Throughout P (e.imagining tick c) := by
  intro k frame hframe
  rw [Evaluator.imagining, Timeline.frame?_imagine] at hframe
  split at hframe
  next =>
    cases hframe
    exact hc
  next => exact h k frame hframe

/-- What projection keeps holds in all frames after a walk if it did before. -/
theorem Walk.throughout {P : Circuit → Prop}
    (hproject : ∀ {c d : Circuit} {validate}, P c → c.project validate = .ok d → P d) {fuel : Nat}
    {task : Task} {e e' : Evaluator} {answer : Except Fault Peak} (h : Walk fuel task e answer e')
    (hframes : Throughout P e) : Throughout P e' := by
  refine h.keeps (P := Throughout P) ⟨?_, ?_, ?_⟩ hframes
  · rintro e e' hsame hframes tick frame hframe
    exact hframes tick frame (hsame.timeline ▸ hframe)
  · exact fun _ _ hframes => hframes
  · rintro e offset timing current projected hnext - hframes
    exact hframes.imagining (hproject (hframes _ _ hnext.known) hnext.project) _

/-! ## Keeping to the chart -/

/-- No trusted neighbour of the present was closed on account of the other one: where one is closed, the
other one was not imagined. -/
def Straight (sides : Timing → Bool) (e : Evaluator) : Prop :=
  ∀ side, sides side = true → side.step ∈ e.deadEnds →
    ∀ frame, e.timeline.frame? (-side.step) = some frame → frame.origin = .given

theorem Grows.straight {sides : Timing → Bool} {e e' : Evaluator} (h : Grows e e')
    (hstraight : Straight sides e') : Straight sides e := by
  intro side htrusted hdead frame hframe
  exact hstraight side htrusted (h.dead _ hdead) frame (h.frame _ _ hframe)

/-- The evaluator has the ticks from some past one to some future one, the given ones among them, and what
it has imagined or closed is as the chart says. -/
structure Follows (h : History) (sides : Timing → Bool) (e : Evaluator) : Prop where
  validate : e.validate = h.validate
  given : ∀ (side : Timing) (n : Nat) c, side ≠ .now → (h.present :: h.given side)[n]? = some c →
    e.timeline.frame? (side.step * n) = some ⟨.given, c⟩
  imagined : ∀ (side : Timing) (n : Nat) frame, side ≠ .now → (h.given side).length < n →
    e.timeline.frame? (side.step * n) = some frame → frame.origin = .projected
  inner : ∀ (side : Timing) (n : Nat) frame, side ≠ .now →
    e.timeline.frame? (side.step * (n + 1 : Nat)) = some frame →
    ∃ inner, e.timeline.frame? (side.step * n) = some inner
  frame : ∀ tick frame, e.timeline.frame? tick = some frame →
    h.chart sides tick = .circuit frame.circuit ∨ h.chart sides tick = .unclear
  dead : ∀ tick ∈ e.deadEnds, h.chart sides tick = .deadEnd ∨ h.chart sides tick = .unclear

namespace Follows

variable {h : History} {sides : Timing → Bool} {e : Evaluator}

/-- A tick without a frame next to one with a frame is the next one to be projected on its side. -/
theorem edge (hfollows : Follows h sides e) {side : Timing} (hside : side ≠ .now) {offset : Int}
    {current : Frame} (hcurrent : e.timeline.frame? offset = some current)
    (hnew : e.timeline.frame? (offset + side.step) = none) :
    ∃ n : Nat, offset = side.step * n ∧ (h.given side).length ≤ n := by
  have hnone : ∀ {tick : Int} {frame : Frame}, tick = offset + side.step →
      e.timeline.frame? tick ≠ some frame := by
    rintro tick frame rfl hframe
    rw [hnew] at hframe
    cases hframe
  rcases exists_steps hside offset with ⟨n, rfl⟩ | ⟨n, rfl⟩
  · refine ⟨n, rfl, Nat.le_of_not_lt fun hlt => ?_⟩
    have hsome : (h.present :: h.given side)[n + 1]? = some (h.given side)[n] := by
      rw [List.getElem?_cons_succ, List.getElem?_eq_getElem hlt]
    exact hnone (step_succ side n) (hfollows.given side (n + 1) _ hside hsome)
  · -- the side step leads back towards the present, where no tick is missing
    have hflip : side.flip ≠ .now := by
      cases side <;> simp_all [Timing.flip]
    rcases hfollows.inner side.flip n current hflip hcurrent with ⟨inner, hinner⟩
    refine absurd hinner (hnone ?_)
    cases side <;> simp only [Timing.flip, Timing.step] at * <;> omega

/-- On a trusted side the next tick is projected with the same tick behind it, except that a neighbour of
the present may have been imagined across from it. -/
theorem chart_next (hfollows : Follows h sides e) {side : Timing} (hside : side ≠ .now)
    (htrusted : sides side = true) {offset : Int} {current : Frame}
    (hcurrent : e.timeline.frame? offset = some current)
    (hnew : e.timeline.frame? (offset + side.step) = none) :
    ∃ behind, h.chart sides (offset + side.step) = current.circuit.onward h.validate behind ∧
      ((e.timeline.frame? (offset - side.step)).map (·.circuit) = behind ∨
        (behind = none ∧ offset = 0 ∧ ∃ frame, e.timeline.frame? (-side.step) = some frame ∧
          frame.origin = .projected)) := by
  have hshown : ∀ {n : Nat} {frame : Frame}, e.timeline.frame? (side.step * n) = some frame →
      h.aside side n = .circuit frame.circuit := by
    intro n frame hframe
    rw [← History.chart_of_trusted hside htrusted]
    rcases hfollows.frame _ _ hframe with hchart | hchart
    · exact hchart
    · rw [History.chart_of_trusted hside htrusted] at hchart
      exact absurd hchart (Circuit.ahead_ne_unclear _ _ _ _ _)
  rcases hfollows.edge hside hcurrent hnew with ⟨n, rfl, hn⟩
  rw [← step_succ, History.chart_of_trusted hside htrusted]
  cases n with
  | zero =>
    -- behind the first tick of this side lies the first one across
    have hzero : side.step * ((0 : Nat) : Int) = 0 := by simp
    have hflip : side.flip ≠ .now := by
      cases side <;> simp_all [Timing.flip]
    have hacross : side.flip.step * ((0 + 1 : Nat) : Int) = -side.step := by
      cases side <;> simp [Timing.flip, Timing.step]
    refine ⟨(h.given side.flip).head?, Circuit.ahead_succ hn (hshown hcurrent) (Or.inl ⟨rfl, rfl⟩), ?_⟩
    rw [hzero, Int.zero_sub]
    cases hgiven : h.given side.flip with
    | cons c rest =>
      have hframe := hfollows.given side.flip (0 + 1) c hflip (by rw [hgiven]; rfl)
      rw [hacross] at hframe
      rw [hframe]
      exact Or.inl rfl
    | nil =>
      cases hframe : e.timeline.frame? (-side.step) with
      | none => exact Or.inl rfl
      | some frame =>
        have hfar : (h.given side.flip).length < 0 + 1 := by simp [hgiven]
        have horigin := hfollows.imagined side.flip (0 + 1) frame hflip hfar
          (by rw [hacross]; exact hframe)
        exact Or.inr ⟨rfl, rfl, frame, rfl, horigin⟩
  | succ m =>
    rcases hfollows.inner side m current hside hcurrent with ⟨inner, hinner⟩
    have hback : side.step * ((m + 1 : Nat) : Int) - side.step = side.step * (m : Int) := by
      rw [step_succ]
      omega
    refine ⟨some inner.circuit, Circuit.ahead_succ hn (hshown hcurrent)
      (Or.inr ⟨m, inner.circuit, rfl, hshown hinner, rfl⟩), ?_⟩
    rw [hback, hinner]
    exact Or.inl rfl

/-- A side that is not trusted is not shown. -/
theorem chart_untrusted (hfollows : Follows h sides e) {side : Timing} (hside : side ≠ .now)
    (huntrusted : sides side = false) {offset : Int} {current : Frame}
    (hcurrent : e.timeline.frame? offset = some current)
    (hnew : e.timeline.frame? (offset + side.step) = none) :
    h.chart sides (offset + side.step) = .unclear := by
  rcases hfollows.edge hside hcurrent hnew with ⟨n, rfl, -⟩
  rw [← step_succ]
  exact History.chart_of_untrusted hside huntrusted n

section Looking

variable {side : Timing} (hside : side ≠ .now) {offset : Int} {current : Frame}
  (hcurrent : e.timeline.frame? offset = some current)
  (hnew : e.timeline.frame? (offset + side.step) = none)

include hside hcurrent hnew

theorem unprojectable (hfollows : Follows h sides e) {fault : Fault}
    (hproject : current.circuit.project e.validate = .error fault) :
    h.chart sides (offset + side.step) = .fault fault ∨
      h.chart sides (offset + side.step) = .unclear := by
  cases htrusted : sides side with
  | false => exact Or.inr (hfollows.chart_untrusted hside htrusted hcurrent hnew)
  | true =>
    rcases hfollows.chart_next hside htrusted hcurrent hnew with ⟨behind, hchart, -⟩
    rw [hfollows.validate] at hproject
    rw [hchart, Circuit.onward, hproject]
    exact Or.inl rfl

theorem stale (hfollows : Follows h sides e) {projected : Circuit}
    (hproject : current.circuit.project e.validate = .ok projected)
    (hstale : e.isStale offset side.step current.circuit projected = true)
    (hstraight : Straight sides (e.closing (offset + side.step))) :
    h.chart sides (offset + side.step) = .deadEnd ∨
      h.chart sides (offset + side.step) = .unclear := by
  cases htrusted : sides side with
  | false => exact Or.inr (hfollows.chart_untrusted hside htrusted hcurrent hnew)
  | true =>
    rcases hfollows.chart_next hside htrusted hcurrent hnew with ⟨behind, hchart, hbehind⟩
    rw [hfollows.validate] at hproject
    rcases hbehind with rfl | ⟨-, rfl, frame, hframe, horigin⟩
    · rw [isStale] at hstale
      rw [hchart, Circuit.onward, hproject]
      simp only [Option.any_map]
      exact Or.inl (if_pos hstale)
    · -- the present is closed in, so the evaluator is not straight
      have hgiven := hstraight side htrusted
        (by rw [Int.zero_add]; exact List.mem_cons_self) frame hframe
      rw [horigin] at hgiven
      cases hgiven

theorem imagine (hfollows : Follows h sides e) {projected : Circuit}
    (hproject : current.circuit.project e.validate = .ok projected)
    (hfresh : e.isStale offset side.step current.circuit projected = false) :
    h.chart sides (offset + side.step) = .circuit projected ∨
      h.chart sides (offset + side.step) = .unclear := by
  cases htrusted : sides side with
  | false => exact Or.inr (hfollows.chart_untrusted hside htrusted hcurrent hnew)
  | true =>
    rcases hfollows.chart_next hside htrusted hcurrent hnew with ⟨behind, hchart, hbehind⟩
    rw [hfollows.validate] at hproject
    rw [isStale] at hfresh
    rw [hchart, Circuit.onward, hproject]
    -- a tick that differs from more ticks than the chart compares it with is as new as the chart says
    rcases hbehind with rfl | ⟨rfl, -, -⟩
    · simp only [Option.any_map]
      exact Or.inl (if_neg (by rw [Bool.not_eq_true]; exact hfresh))
    · rw [Bool.or_eq_false_iff] at hfresh
      simp [hfresh.1]

end Looking

/-! ## Walks keep to the chart -/

theorem of_same {e' : Evaluator} (hfollows : Follows h sides e) (hsame : SameTicks e e') :
    Follows h sides e' where
  validate := hsame.validate.trans hfollows.validate
  given := hsame.timeline ▸ hfollows.given
  imagined := hsame.timeline ▸ hfollows.imagined
  inner := hsame.timeline ▸ hfollows.inner
  frame := hsame.timeline ▸ hfollows.frame
  dead := hsame.deadEnds ▸ hfollows.dead

theorem closing (hfollows : Follows h sides e) {tick : Int}
    (htick : h.chart sides tick = .deadEnd ∨ h.chart sides tick = .unclear) :
    Follows h sides (e.closing tick) where
  validate := hfollows.validate
  given := hfollows.given
  imagined := hfollows.imagined
  inner := hfollows.inner
  frame := hfollows.frame
  dead := by
    intro k hk
    rcases List.mem_cons.mp hk with rfl | hk
    · exact htick
    · exact hfollows.dead k hk

theorem imagining (hfollows : Follows h sides e) {side : Timing} (hside : side ≠ .now) {offset : Int}
    {current : Frame} (hcurrent : e.timeline.frame? offset = some current)
    (hnew : e.timeline.frame? (offset + side.step) = none) {c : Circuit}
    (htick : h.chart sides (offset + side.step) = .circuit c ∨
      h.chart sides (offset + side.step) = .unclear) :
    Follows h sides (e.imagining (offset + side.step) c) := by
  have hgrows := grows_imagining e hnew c
  have hframe : ∀ {tick : Int} {frame : Frame},
      (e.imagining (offset + side.step) c).timeline.frame? tick = some frame →
      (tick = offset + side.step ∧ frame = ⟨.projected, c⟩) ∨ e.timeline.frame? tick = some frame := by
    intro tick frame hframe
    rw [Evaluator.imagining, Timeline.frame?_imagine] at hframe
    split at hframe
    next heq => exact Or.inl ⟨heq, (Option.some.inj hframe).symm⟩
    next => exact Or.inr hframe
  rcases hfollows.edge hside hcurrent hnew with ⟨n, rfl, -⟩
  refine ⟨hfollows.validate, ?_, ?_, ?_, ?_, hfollows.dead⟩
  · intro other m given hother hgiven
    exact hgrows.frame _ _ (hfollows.given other m given hother hgiven)
  · intro other m frame hother hfar hm
    rcases hframe hm with ⟨-, rfl⟩ | hold
    · rfl
    · exact hfollows.imagined other m frame hother hfar hold
  · intro other m frame hother hm
    rcases hframe hm with ⟨heq, -⟩ | hold
    · -- the new tick is the next one on its side, so the one before it is the current one
      rw [← step_succ] at heq
      have hsame : other = side := by
        rw [← sideOf_step hother m, heq, sideOf_step hside]
      subst hsame
      have hsteps : m + 1 = n + 1 := by
        rw [← natAbs_step hother (m + 1), heq, natAbs_step hside]
      obtain rfl : m = n := Nat.succ.inj hsteps
      exact ⟨current, hgrows.frame _ _ hcurrent⟩
    · rcases hfollows.inner other m frame hother hold with ⟨inner, hinner⟩
      exact ⟨inner, hgrows.frame _ _ hinner⟩
  · intro tick frame htick'
    rcases hframe htick' with ⟨rfl, rfl⟩ | hold
    · exact htick
    · exact hfollows.frame tick frame hold

/-- An evaluator that was not asked anything keeps to the chart. -/
theorem fresh (h : History) (sides : Timing → Bool) : Follows h sides h.fresh where
  validate := rfl
  given := by
    intro side n c hside hc
    have hn : n < (h.present :: h.given side).length := (List.getElem?_eq_some_iff.mp hc).1
    rcases h.frame?_fresh hside (Nat.le_of_lt_succ hn) with ⟨c', hc', hframe⟩
    rw [hc] at hc'
    cases hc'
    exact hframe
  imagined := by
    intro side n frame hside hn hframe
    have hle := h.le_of_frame?_fresh hside hframe
    omega
  inner := by
    intro side n frame hside hframe
    -- the given ticks have no gaps
    have hle := h.le_of_frame?_fresh hside hframe
    rcases h.frame?_fresh hside (n := n) (Nat.le_of_succ_le hle) with ⟨c, -, hinner⟩
    exact ⟨_, hinner⟩
  frame := by
    have hshown : ∀ (side : Timing) (n : Nat) frame, side ≠ .now →
        h.fresh.timeline.frame? (side.step * n) = some frame →
        h.chart sides (side.step * n) = .circuit frame.circuit ∨
          h.chart sides (side.step * n) = .unclear := by
      intro side n frame hside hframe
      rcases h.frame?_fresh hside (h.le_of_frame?_fresh hside hframe) with ⟨c, hc, hsame⟩
      rw [hframe] at hsame
      cases hsame
      cases htrusted : sides side with
      | true =>
        rw [History.chart_of_trusted hside htrusted]
        exact Or.inl (Circuit.ahead_of_given hc)
      | false =>
        cases n with
        | zero =>
          cases hc
          exact Or.inl (by rw [Int.natCast_zero, Int.mul_zero]; rfl)
        | succ n => exact Or.inr (History.chart_of_untrusted hside htrusted n)
    intro tick frame hframe
    rcases exists_steps (by decide : Timing.future ≠ .now) tick with ⟨n, rfl⟩ | ⟨n, rfl⟩
    · exact hshown .future n frame (by decide) hframe
    · exact hshown .past (n + 1) frame (by decide) hframe
  dead := by simp [History.fresh, ofHistory]

end Follows

/-- A walk that ends straight keeps to the chart. -/
theorem Walk.follows {h : History} {sides : Timing → Bool} {fuel : Nat} {task : Task}
    {e e' : Evaluator} {answer : Except Fault Peak} (hwalk : Walk fuel task e answer e')
    (hfollows : Follows h sides e) (hstraight : Straight sides e') : Follows h sides e' := by
  -- what is straight at the end was so all along, as nothing closed is opened again
  refine hwalk.keeps (P := fun e => Straight sides e → Follows h sides e) ⟨?_, ?_, ?_⟩
    (fun _ => hfollows) hstraight
  · intro e e' hsame hfollows hstraight
    exact (hfollows ((grows_of_same hsame).straight hstraight)).of_same hsame
  · intro e offset timing current projected hnext hstale hfollows hstraight
    have hbefore := hfollows ((grows_closing e _).straight hstraight)
    exact hbefore.closing (hbefore.stale hnext.timing_ne hnext.known hnext.new hnext.project hstale
      hstraight)
  · intro e offset timing current projected hnext hfresh hfollows hstraight
    have hbefore := hfollows ((grows_imagining e hnext.new projected).straight hstraight)
    have htick := hbefore.imagine hnext.timing_ne hnext.known hnext.new hnext.project hfresh
    exact hbefore.imagining hnext.timing_ne hnext.known hnext.new htick

end Evaluator

end PulseCircuit
