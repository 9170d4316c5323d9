import PulseCircuit.Proofs.Reachable
import PulseCircuit.Proofs.Termination

/-!
# Bounds on what a question costs

The ticks an evaluator starts with are the given circuits, and from them all bounds follow: each question
ends, with a depth the evaluator allows, and the evaluator imagines at most one tick for each lit cell on
the way up in the outermost given circuits.

* `Timeline.frame?_ofHistory`, `extent_ofHistory`: where an evaluator starts;
* `Extent.length_universe_lt_depthBound`: the allowed depth is more than there is room for;
* `Evaluator.within_bounds`: answers, ticks and counters after any queries.
-/

namespace PulseCircuit

/-! ## The given ticks -/

/-- The last of the given circuits on one side, or the present if there is none. -/
def lastGiven (present : Circuit) (given : List Circuit) : Circuit := given.getLast?.getD present

/-- The given circuit of a tick, or the outermost one on its side. -/
def givenAt (present : Circuit) (past future : List Circuit) (tick : Int) : Circuit :=
  if tick < 0 then lastGiven present (past.take (-tick).toNat)
  else lastGiven present (future.take tick.toNat)

theorem getElem?_eq_lastGiven {given : List Circuit} {n : Nat} (hn : n < given.length)
    (present : Circuit) : given[n]? = some (lastGiven present (given.take (n + 1))) := by
  rw [lastGiven, List.getLast?_take, if_neg (Nat.succ_ne_zero n), Nat.add_sub_cancel,
    List.getElem?_eq_getElem hn]
  rfl

theorem lastGiven_take {given : List Circuit} {n : Nat} (hn : given.length ≤ n)
    (present : Circuit) : lastGiven present (given.take n) = lastGiven present given := by
  rw [List.take_of_length_le hn]

/-- Each side gives a circuit that was given. -/
theorem lastGiven_mem (present : Circuit) (given : List Circuit) :
    lastGiven present given ∈ present :: given := by
  rw [lastGiven]
  cases h : given.getLast? with
  | none => exact List.mem_cons_self
  | some c => exact List.mem_cons_of_mem _ (List.mem_of_getLast? h)

theorem givenAt_mem (present : Circuit) (past future : List Circuit) (tick : Int) :
    givenAt present past future tick ∈ present :: (past ++ future) := by
  have hside : ∀ {given : List Circuit} (n : Nat), given ⊆ past ++ future →
      lastGiven present (given.take n) ∈ present :: (past ++ future) := by
    intro given n hsub
    rcases List.mem_cons.mp (lastGiven_mem present (given.take n)) with heq | hmem
    · rw [heq]
      exact List.mem_cons_self
    · exact List.mem_cons_of_mem _ (hsub (List.mem_of_mem_take hmem))
  rw [givenAt]
  split
  · exact hside _ (List.subset_append_left past future)
  · exact hside _ (List.subset_append_right past future)

/-- Beyond the recorded past every tick gives the outermost circuit. -/
theorem givenAt_past {present : Circuit} {past future : List Circuit} {tick : Int}
    (htick : tick ≤ -(past.length : Int)) :
    givenAt present past future tick = lastGiven present past := by
  by_cases hneg : tick < 0
  · rw [givenAt, if_pos hneg, lastGiven_take (by omega)]
  · obtain rfl : past = [] := List.length_eq_zero_iff.mp (by omega)
    obtain rfl : tick = 0 := by
      simp only [List.length_nil] at htick
      omega
    simp [givenAt, lastGiven]

/-- Beyond the recorded future every tick gives the outermost circuit. -/
theorem givenAt_future {present : Circuit} {past future : List Circuit} {tick : Int}
    (htick : (future.length : Int) ≤ tick) :
    givenAt present past future tick = lastGiven present future := by
  rw [givenAt, if_neg (by omega), lastGiven_take (by omega)]

namespace Timeline

theorem frame?_record {sign : Int} (hsign : sign = 1 ∨ sign = -1) (distance : Nat)
    (given : List Circuit) (t : Timeline) (tick : Int) :
    (record sign distance given t).frame? tick =
      if (distance : Int) < sign * tick ∧ sign * tick ≤ distance + given.length then
        given[(sign * tick).toNat - distance - 1]?.map (Frame.mk .given)
      else t.frame? tick := by
  -- the circuits are recorded from the present outwards, so the induction moves the distance along
  induction given generalizing distance t with
  | nil =>
    have hnot : ¬ ((distance : Int) < sign * tick ∧
        sign * tick ≤ distance + ([] : List Circuit).length) := by
      simp only [List.length_nil]
      omega
    rw [if_neg hnot]
    rfl
  | cons c given ih =>
    have hhead : (⟨t.frames.insert (sign * (distance + 1 : Nat)) ⟨.given, c⟩⟩ : Timeline).frame? tick =
        if tick = sign * (distance + 1 : Nat) then some ⟨.given, c⟩ else t.frame? tick :=
      Table.get?_insert ..
    have htick : tick = sign * (distance + 1 : Nat) ↔ sign * tick = distance + 1 := by
      rcases hsign with rfl | rfl <;> omega
    rw [record, ih, hhead, List.length_cons]
    simp only [htick]
    generalize sign * tick = place
    by_cases hfirst : place = distance + 1
    · have hindex : place.toNat - distance - 1 = 0 := by omega
      rw [if_neg (by omega), if_pos hfirst, if_pos (by omega), hindex]
      rfl
    · rw [if_neg hfirst]
      by_cases hlater : ((distance + 1 : Nat) : Int) < place ∧
          place ≤ ((distance + 1 : Nat) : Int) + given.length
      · have hindex : place.toNat - distance - 1 = (place.toNat - (distance + 1) - 1) + 1 := by omega
        rw [if_pos hlater, if_pos (by omega), hindex, List.getElem?_cons_succ]
      · rw [if_neg hlater, if_neg (by omega)]

/-- An evaluator starts with the given circuits, and with nothing beyond them. -/
theorem frame?_ofHistory (present : Circuit) (past future : List Circuit) (tick : Int) :
    (ofHistory present past future).frame? tick =
      if -(past.length : Int) ≤ tick ∧ tick ≤ future.length then
        some ⟨.given, givenAt present past future tick⟩
      else none := by
  have hpresent : (⟨Table.empty.insert 0 ⟨.given, present⟩⟩ : Timeline).frame? tick =
      if tick = 0 then some ⟨.given, present⟩ else none :=
    Table.get?_insert ..
  rw [ofHistory, frame?_record (Or.inl rfl), frame?_record (Or.inr rfl), hpresent]
  rcases Int.lt_trichotomy tick 0 with hneg | rfl | hpos
  · rw [if_neg (by omega), if_neg (by omega : ¬ tick = 0)]
    by_cases hgiven : -(past.length : Int) ≤ tick
    · have hindex : (-1 * tick).toNat - 0 - 1 + 1 = (-tick).toNat := by omega
      rw [if_pos (by omega), if_pos (by omega), getElem?_eq_lastGiven (by omega) present, hindex,
        givenAt, if_pos hneg]
      rfl
    · rw [if_neg (by omega), if_neg (by omega)]
  · simp [givenAt, lastGiven]
  · rw [if_neg (by omega : ¬ (((0 : Nat) : Int) < -1 * tick ∧ _)), if_neg (by omega : ¬ tick = 0)]
    by_cases hgiven : tick ≤ future.length
    · have hindex : (1 * tick).toNat - 0 - 1 + 1 = tick.toNat := by omega
      rw [if_pos (by omega), if_pos (by omega), getElem?_eq_lastGiven (by omega) present, hindex,
        givenAt, if_neg (by omega)]
      rfl
    · rw [if_neg (by omega), if_neg (by omega)]

theorem given_of_frame? {present : Circuit} {past future : List Circuit} {tick : Int} {frame : Frame}
    (hframe : (ofHistory present past future).frame? tick = some frame) :
    frame.circuit ∈ present :: (past ++ future) := by
  rw [frame?_ofHistory] at hframe
  split at hframe
  next =>
    cases hframe
    exact givenAt_mem present past future tick
  next => cases hframe

/-! ## Width and size -/

theorem foldl_max_le_iff {α : Type} (f : α → Nat) {xs : List α} {start bound : Nat} :
    xs.foldl (fun width x => max width (f x)) start ≤ bound ↔ start ≤ bound ∧ ∀ x ∈ xs, f x ≤ bound := by
  induction xs generalizing start with
  | nil => simp
  | cons y ys ih =>
    rw [List.foldl_cons, ih, List.forall_mem_cons, Nat.max_le, and_assoc]

/-- A timeline is as wide as its widest tick. -/
theorem width_le_iff {t : Timeline} {bound : Nat} :
    t.width ≤ bound ↔ ∀ tick frame, t.frame? tick = some frame → frame.circuit.size ≤ bound := by
  rw [width, foldl_max_le_iff (fun frame : Frame => frame.circuit.size)]
  constructor
  · rintro ⟨-, hall⟩ tick frame hframe
    exact hall frame (List.mem_map.mpr ⟨_, Table.get?_eq_some_iff.mp hframe, rfl⟩)
  · intro hall
    refine ⟨Nat.zero_le _, fun frame hmem => ?_⟩
    obtain ⟨⟨tick, frame⟩, hrow, rfl⟩ := List.mem_map.mp hmem
    exact hall tick frame (Table.get?_eq_some_iff.mpr hrow)

theorem size_le_width {t : Timeline} {tick : Int} {frame : Frame}
    (hframe : t.frame? tick = some frame) : frame.circuit.size ≤ t.width :=
  width_le_iff.mp (Nat.le_refl _) tick frame hframe

end Timeline

namespace Evaluator

/-- The scope of given circuits. -/
def Scope.ofHistory (present : Circuit) (past future : List Circuit) : Scope where
  past := past.length
  future := future.length
  pastDepth := (lastGiven present past).litDepth
  futureDepth := (lastGiven present future).litDepth
  keys tick := (givenAt present past future tick).live.keys

theorem Scope.steady_ofHistory (present : Circuit) (past future : List Circuit) :
    (Scope.ofHistory present past future).Steady where
  past := by
    intro tick htick
    simp only [Scope.ofHistory] at htick ⊢
    rw [givenAt_past htick, givenAt_past (Int.le_refl _)]
  future := by
    intro tick htick
    simp only [Scope.ofHistory] at htick ⊢
    rw [givenAt_future htick, givenAt_future (Int.le_refl _)]

/-- A fresh evaluator extends as far as circuits are given, and has done nothing. -/
theorem extent_ofHistory {present : Circuit} {past future : List Circuit}
    (hfit : ∀ c ∈ present :: (past ++ future), c.Fit) (validate : Bool) :
    Extent (Scope.ofHistory present past future) (ofHistory validate present past future)
      past.length future.length where
  frame_iff := by
    intro k
    show (∃ frame, (Timeline.ofHistory present past future).frame? k = some frame) ↔ _
    rw [Timeline.frame?_ofHistory]
    split
    next hin => simp [hin]
    next hout => simp [hout]
  keys := by
    intro k frame hframe
    change (Timeline.ofHistory present past future).frame? k = some frame at hframe
    rw [Timeline.frame?_ofHistory] at hframe
    split at hframe
    next =>
      cases hframe
      rfl
    next => cases hframe
  past := by
    refine Side.of_given ?_ (hfit _ ?_)
    · show (Timeline.ofHistory present past future).frame? (-1 * (past.length : Int)) = _
      rw [Timeline.frame?_ofHistory, if_pos (by omega), givenAt_past (by omega)]
    · rcases List.mem_cons.mp (lastGiven_mem present past) with heq | hpast
      · rw [heq]
        exact List.mem_cons_self
      · exact List.mem_cons_of_mem _ (List.mem_append_left _ hpast)
  future := by
    refine Side.of_given ?_ (hfit _ ?_)
    · show (Timeline.ofHistory present past future).frame? (1 * (future.length : Int)) = _
      rw [Timeline.frame?_ofHistory, if_pos (by omega), givenAt_future (by omega)]
    · rcases List.mem_cons.mp (lastGiven_mem present future) with heq | hfuture
      · rw [heq]
        exact List.mem_cons_self
      · exact List.mem_cons_of_mem _ (List.mem_append_right _ hfuture)
  deadEnds := by simp [ofHistory]
  nodup := List.nodup_nil
  projections := Nat.zero_le _
  deepest := Nat.zero_le _

/-! ## The allowed depth -/

theorem length_flatMap_le {α β : Type} {f : α → List β} {bound : Nat} {xs : List α}
    (h : ∀ x ∈ xs, (f x).length ≤ bound) : (xs.flatMap f).length ≤ xs.length * bound := by
  induction xs with
  | nil => simp
  | cons x xs ih =>
    have hrest := ih fun y hy => h y (List.mem_cons_of_mem _ hy)
    have hhead := h x List.mem_cons_self
    rw [List.flatMap_cons, List.length_append, List.length_cons, Nat.succ_mul]
    omega

/-- There are as many frames as there are ticks from end to end. -/
theorem Extent.le_size {s : Scope} {e : Evaluator} {a b : Nat} (h : Extent s e a b) :
    a + b + 1 ≤ e.timeline.frames.size := by
  -- each tick from `-a` to `b` is a key of the table of frames
  have hnodup : ((List.range (a + b + 1)).map fun n : Nat => (n : Int) - a).Nodup := by
    refine List.Nodup.map (fun m n hmn => ?_) List.nodup_range
    have hsame : (m : Int) - a = (n : Int) - a := hmn
    omega
  have hsub : ((List.range (a + b + 1)).map fun n : Nat => (n : Int) - a) ⊆
      e.timeline.frames.keys := by
    intro tick htick
    obtain ⟨n, hn, rfl⟩ := List.mem_map.mp htick
    rw [List.mem_range] at hn
    obtain ⟨frame, hframe⟩ := (h.frame_iff ((n : Int) - a)).mpr (by omega)
    rw [Table.mem_keys_iff]
    exact Option.isSome_of_eq_some hframe
  have hle := (List.subperm_of_subset hnodup hsub).length_le
  simpa [Table.keys, Table.size] using hle

/-- No tick has more live ids than the widest frame. -/
theorem Extent.length_keys_le {s : Scope} (hs : s.Steady) {e : Evaluator} {a b : Nat}
    (h : Extent s e a b) (tick : Int) : (s.keys tick).length ≤ e.timeline.width := by
  have hin : ∀ tick, -(a : Int) ≤ tick → tick ≤ b → (s.keys tick).length ≤ e.timeline.width := by
    intro tick hlow hhigh
    obtain ⟨frame, hframe⟩ := (h.frame_iff tick).mpr ⟨hlow, hhigh⟩
    have hle := Timeline.size_le_width hframe
    rw [← h.keys tick frame hframe, Table.keys, List.length_map]
    exact hle
  have hpast := h.past.recorded_le
  have hfuture := h.future.recorded_le
  -- a tick without a frame has the ids of the outermost recorded one
  rcases Int.lt_or_le tick (-(a : Int)) with hlow | hlow
  · rw [hs.past tick (by omega)]
    exact hin _ (by omega) (by omega)
  · rcases Int.lt_or_le (b : Int) tick with hhigh | hhigh
    · rw [hs.future tick (by omega)]
      exact hin _ (by omega) (by omega)
    · exact hin tick hlow hhigh

/-- A walk is allowed to go deeper than there is room for. -/
theorem Extent.length_universe_lt_depthBound {s : Scope} (hs : s.Steady) {e : Evaluator} {a b : Nat}
    (h : Extent s e a b) (hpast : s.pastDepth ≤ (s.keys (-(s.past : Int))).length + 1)
    (hfuture : s.futureDepth ≤ (s.keys s.future).length + 1) (colour : Colour) :
    (s.universe colour).length < e.depthBound := by
  have hwidth := h.length_keys_le hs
  have hsize := h.le_size
  have hpastwidth := hwidth (-(s.past : Int))
  have hfuturewidth := hwidth s.future
  have hpastle := h.past.recorded_le
  have hfuturele := h.future.recorded_le
  -- the ticks in reach are those with frames and some for each lit depth, which no width falls short of
  have hticks : s.ticks.length ≤ e.timeline.frames.size + 4 * e.timeline.width + 3 := by
    rw [Scope.ticks, List.length_map, List.length_range]
    omega
  have hlength : (s.universe colour).length ≤ s.ticks.length * e.timeline.width := by
    refine length_flatMap_le fun tick _ => ?_
    rw [List.length_map]
    exact hwidth tick
  rw [depthBound]
  calc (s.universe colour).length
    _ ≤ s.ticks.length * e.timeline.width := hlength
    _ ≤ (e.timeline.frames.size + 4 * e.timeline.width + 3) * e.timeline.width :=
      Nat.mul_le_mul_right _ hticks
    _ < (e.timeline.frames.size + 4 * e.timeline.width + 4) * (e.timeline.width + 2) :=
      Nat.mul_lt_mul_of_lt_of_lt (by omega) (by omega)

/-! ## All bounds -/

open Circuit

/-- What an evaluator for given circuits keeps to, whatever it is asked. With a larger depth allowed the
outcome is the same, so the walk ends by itself. -/
structure WithinBounds (present : Circuit) (past future : List Circuit) (e : Evaluator) : Prop where
  answers : ∀ (q : Query) id, e.reply q ≠ .error (.endless id)
  terminates : ∀ (q : Query) fuel, e.depthBound ≤ fuel →
    peakAt (peakNow fuel) 0 q.id q.colour q.timing e =
      peakAt (peakNow e.depthBound) 0 q.id q.colour q.timing e
  contiguous : ∃ a b : Nat, a ≤ past.length + (lastGiven present past).litDepth ∧
    b ≤ future.length + (lastGiven present future).litDepth ∧
    ∀ tick, e.timeline.contains tick = true ↔ -(a : Int) ≤ tick ∧ tick ≤ b
  deepest : e.stats.deepest ≤ max (past.length + (lastGiven present past).litDepth)
    (future.length + (lastGiven present future).litDepth)
  projections : e.stats.projections ≤
    (lastGiven present past).litDepth + (lastGiven present future).litDepth + 2

/-- An extent in the scope of the given circuits keeps to the bounds. -/
theorem Extent.withinBounds {present : Circuit} {past future : List Circuit} {e : Evaluator}
    {a b : Nat} (h : Extent (Scope.ofHistory present past future) e a b) :
    WithinBounds present past future e := by
  have hs := Scope.steady_ofHistory present past future
  have hkeys : ∀ c : Circuit, c.litDepth ≤ c.live.keys.length + 1 := by
    intro c
    rw [Table.keys, List.length_map]
    exact c.litDepth_le_size
  -- a cut would need more room than there is
  have hroom : ∀ (q : Query) {answer e' id},
      Walk e.depthBound (.look 0 q.id q.colour q.timing) e answer e' →
      answer ≠ .error (.endless id) := by
    intro q answer e' id hwalk hcut
    have hle := (hwalk.fuel_le_room hs hcut h).1
    have hlt := h.length_universe_lt_depthBound hs
      (by simp only [Scope.ofHistory, givenAt_past (Int.le_refl _)]; exact hkeys _)
      (by simp only [Scope.ofHistory, givenAt_future (Int.le_refl _)]; exact hkeys _) q.colour
    have hcount : room ((Scope.ofHistory present past future).universe q.colour) e ≤
        ((Scope.ofHistory present past future).universe q.colour).length :=
      List.countP_le_length
    have hcolour : Task.colour (.look 0 q.id q.colour q.timing) = q.colour := rfl
    rw [hcolour] at hle
    omega
  have hpast : a ≤ past.length + (lastGiven present past).litDepth := h.past.reach_le
  have hfuture : b ≤ future.length + (lastGiven present future).litDepth := h.future.reach_le
  refine ⟨fun q id => ?_, fun q fuel hfuel => ?_, ⟨a, b, hpast, hfuture, fun tick => ?_⟩, ?_, ?_⟩
  · rcases e.reply_cases q with ⟨-, ⟨-, hreply⟩ | ⟨frame, fault, -, hcell, hreply⟩⟩ |
      ⟨frame, cell, -, -, hwalk⟩
    · simp [hreply]
    · rw [hreply]
      rintro heq
      cases heq
      exact cell_ne_endless _ hcell
    · exact hroom q hwalk
  · have hwalk := isWalk_peakAt (isWalk_peakNow e.depthBound) 0 q.id q.colour q.timing e
    have hdeep : IsWalk fuel (.look 0 q.id q.colour q.timing)
        (peakAt (peakNow e.depthBound) 0 q.id q.colour q.timing) e :=
      Walk.mono hwalk (fun id => hroom q hwalk) hfuel
    exact (isWalk_peakAt (isWalk_peakNow fuel) 0 q.id q.colour q.timing e).run_eq hdeep
  · rw [← h.frame_iff, Timeline.contains, Table.contains, Option.isSome_iff_exists]
    rfl
  · have hdeepest := h.deepest
    omega
  · have hprojections := h.projections
    have hclosed := h.closed_le
    have hpastlength : (Scope.ofHistory present past future).past = past.length := rfl
    have hfuturelength : (Scope.ofHistory present past future).future = future.length := rfl
    omega

/-- Whatever an evaluator for checked circuits is asked, each question ends, and the ticks it imagines and
the projections it counts stay within what the outermost circuits allow. -/
theorem within_bounds {present : Circuit} {past future : List Circuit}
    (hgiven : ∀ c ∈ present :: (past ++ future), c.checkAll = .ok () ∧ c.Keyed ∧ c.Numeric)
    (validate : Bool) (queries : List Query) :
    WithinBounds present past future
      ((ofHistory validate present past future).asked queries) := by
  have hfit : ∀ c ∈ present :: (past ++ future), c.Fit := by
    intro c hc
    obtain ⟨hcheck, hkeyed, hnumeric⟩ := hgiven c hc
    exact ⟨rooted_of_checkAll hkeyed hcheck, hnumeric.placed⟩
  have hs := Scope.steady_ofHistory present past future
  obtain ⟨a, b, hextent⟩ := asked_invariant
    (P := fun e => ∃ a b, Extent (Scope.ofHistory present past future) e a b)
    (fun hwalk ⟨a, b, h⟩ => hwalk.extent hs h) ⟨_, _, extent_ofHistory hfit validate⟩ queries
  exact hextent.withinBounds

/-- A lit cell under the lit root, with a wire each way between them, one for each direction of time. -/
def seesaw : Circuit :=
  initial.performAll true
    [.createCell .root .relay .origin, .fireCell .root .red, .fireCell ⟨1⟩ .red,
      .createWire .root ⟨1⟩ .any .past, .createWire ⟨1⟩ .root .any .future]

theorem within_bounds_seesaw :
    WithinBounds seesaw [.initial] []
      ((ofHistory true seesaw [.initial] []).asked
        [⟨⟨1⟩, .green, .past⟩, ⟨.root, .red, .future⟩, ⟨⟨1⟩, .red, .now⟩]) := by
  have hseesaw : seesaw.Keyed := (Reachable.performAll .initial true _).sound.linked.keyed
  have hinitial : Keyed .initial := Reachable.initial.sound.linked.keyed
  refine within_bounds (fun c hc => ?_) true _
  rcases List.mem_pair.mp hc with rfl | rfl
  · exact ⟨by decide, hseesaw, by decide⟩
  · exact ⟨by decide, hinitial, by decide⟩

end Evaluator

end PulseCircuit
