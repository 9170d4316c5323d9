import Mathlib.Data.List.Perm.Basic
import PulseCircuit.Proofs.Ascent
import PulseCircuit.Proofs.Numeric
import PulseCircuit.Proofs.Pending

/-!
# How far questions reach

A question that looks in one direction imagines one tick after the other. Each imagined tick has a lit cell
less on the ways to the root, and a tick that shows no pulse is followed by a dead end. So the number of
ticks is bounded by what was given (`Extent`), and every walk keeps within this bound (`Walk.extent`).
-/

namespace PulseCircuit

/-- What projection needs to make a circuit darker, or to see that it is dark. -/
structure Circuit.Fit (c : Circuit) : Prop where
  rooted : c.Rooted
  placed : c.Placed

namespace Circuit

theorem Fit.project {c d : Circuit} (h : c.Fit) {validate : Bool}
    (hproject : c.project validate = .ok d) : d.Fit := by
  obtain ⟨kept, -, rfl⟩ := project_ok hproject
  exact ⟨h.rooted.keepPulses kept, h.placed.keepPulses kept⟩

/-- A fit circuit that is not projected to the same state is darker afterwards. -/
theorem Fit.litDepth_lt {c d : Circuit} (h : c.Fit) {validate : Bool}
    (hproject : c.project validate = .ok d) (hfresh : d.sameState c = false) :
    d.litDepth < c.litDepth := by
  have hle := h.rooted.litDepth_project hproject
  have hlit : c.litDepth ≠ 0 := by
    -- here it matters that the circuit equals itself, which takes positions made of numbers
    intro hdark
    have hnumeric := h.placed.numeric_of_dark fun {_ _} hcell => h.rooted.fire_eq_none hdark hcell
    rw [h.rooted.project_eq_self hdark hproject, sameState_self hnumeric] at hfresh
    cases hfresh
  omega

theorem keys_project {c d : Circuit} {validate : Bool} (hproject : c.project validate = .ok d) :
    d.live.keys = c.live.keys := by
  obtain ⟨kept, -, rfl⟩ := project_ok hproject
  exact Table.keys_map _ _

end Circuit

theorem Timeline.frame?_imagine (t : Timeline) (tick k : Int) (c : Circuit) :
    (t.imagine tick c).frame? k = if k = tick then some ⟨.projected, c⟩ else t.frame? k :=
  Table.get?_insert t.frames tick k _

namespace Evaluator

/-! ## One side of the present -/

/-- On one side of the present the ticks go on from the last recorded one up to `reach`, and each of them
has used up its distance from the recorded ones in lit cells. -/
structure Side (t : Timeline) (sign : Int) (recorded depth reach : Nat) : Prop where
  recorded_le : recorded ≤ reach
  frame : ∀ n : Nat, recorded ≤ n → n ≤ reach → ∃ frame, t.frame? (sign * n) = some frame ∧
    frame.circuit.Fit ∧ frame.circuit.litDepth + (n - recorded) ≤ depth

namespace Side

variable {t : Timeline} {sign : Int} {recorded depth reach : Nat}

theorem reach_le (h : Side t sign recorded depth reach) : reach ≤ recorded + depth := by
  obtain ⟨frame, -, -, hdepth⟩ := h.frame reach h.recorded_le (Nat.le_refl _)
  omega

/-- A recorded tick is a side of its own. -/
theorem of_given {c : Circuit} (hframe : t.frame? (sign * recorded) = some ⟨.given, c⟩)
    (hfit : c.Fit) : Side t sign recorded c.litDepth recorded where
  recorded_le := Nat.le_refl _
  frame := by
    intro n hlow hhigh
    obtain rfl : n = recorded := Nat.le_antisymm hhigh hlow
    refine ⟨_, hframe, hfit, ?_⟩
    show c.litDepth + (n - n) ≤ c.litDepth
    omega

/-- A tick that had no frame is none of those the side speaks of. -/
theorem keep (h : Side t sign recorded depth reach) {tick : Int} (hnew : t.frame? tick = none)
    (c : Circuit) : Side (t.imagine tick c) sign recorded depth reach where
  recorded_le := h.recorded_le
  frame := by
    intro n hlow hhigh
    obtain ⟨frame, hframe, hfit⟩ := h.frame n hlow hhigh
    refine ⟨frame, ?_, hfit⟩
    have hne : sign * n ≠ tick := by
      intro heq
      rw [heq, hnew] at hframe
      cases hframe
    rw [Timeline.frame?_imagine, if_neg hne, hframe]

/-- The side grows by a tick that is darker than the last one. -/
theorem extend (h : Side t sign recorded depth reach) {current projected : Circuit}
    {origin : Origin} {validate : Bool} {tick : Int} (htick : tick = sign * (reach + 1 : Nat))
    (hnew : t.frame? tick = none)
    (hcurrent : t.frame? (sign * reach) = some ⟨origin, current⟩)
    (hproject : current.project validate = .ok projected)
    (hfresh : projected.sameState current = false) :
    Side (t.imagine tick projected) sign recorded depth (reach + 1) where
  recorded_le := Nat.le_succ_of_le h.recorded_le
  frame := by
    intro n hlow hhigh
    -- the new tick is the only one the side did not speak of before
    rcases Nat.lt_or_ge reach n with hlast | hold
    · obtain rfl : n = reach + 1 := by omega
      obtain ⟨frame, hframe, hfit, hdepth⟩ := h.frame reach h.recorded_le (Nat.le_refl _)
      rw [hcurrent] at hframe
      cases hframe
      refine ⟨_, by rw [Timeline.frame?_imagine, if_pos htick.symm], hfit.project hproject, ?_⟩
      have hdarker := hfit.litDepth_lt hproject hfresh
      show projected.litDepth + (reach + 1 - recorded) ≤ depth
      have hdepth' : current.litDepth + (reach - recorded) ≤ depth := hdepth
      omega
    · exact (h.keep hnew projected).frame n hlow hold

end Side

/-! ## Both sides -/

/-- What was given to an evaluator, as far as it bounds the ticks to be imagined: how many ticks were
recorded on each side, how many lit cells are on one way up in the outermost of them, and which ids are
live in each tick. -/
structure Scope where
  past : Nat
  future : Nat
  pastDepth : Nat
  futureDepth : Nat
  keys : Int → List Id

/-- The evaluator has frames for the ticks from `-a` to `b`, it has come no farther in what it counts, and
the only ticks it has closed are the next ones on both sides. -/
structure Extent (s : Scope) (e : Evaluator) (a b : Nat) : Prop where
  frame_iff : ∀ k, (∃ frame, e.timeline.frame? k = some frame) ↔ -(a : Int) ≤ k ∧ k ≤ b
  keys : ∀ k frame, e.timeline.frame? k = some frame → frame.circuit.live.keys = s.keys k
  past : Side e.timeline (-1) s.past s.pastDepth a
  future : Side e.timeline 1 s.future s.futureDepth b
  deadEnds : ∀ k ∈ e.deadEnds, k = -(a : Int) - 1 ∨ k = b + 1
  nodup : e.deadEnds.Nodup
  projections : e.stats.projections ≤ (a - s.past) + (b - s.future) + e.deadEnds.length
  deepest : e.stats.deepest ≤ max a b

/-- Ticks beyond the recorded ones have the ids of the outermost recorded one. -/
structure Scope.Steady (s : Scope) : Prop where
  past : ∀ k, k ≤ -(s.past : Int) → s.keys k = s.keys (-(s.past : Int))
  future : ∀ k, (s.future : Int) ≤ k → s.keys k = s.keys s.future

namespace Extent

variable {s : Scope} {e e' : Evaluator} {a b : Nat}

theorem of_same (h : Extent s e a b) (hsame : SameTicks e e') : Extent s e' a b where
  frame_iff := hsame.timeline ▸ h.frame_iff
  keys := hsame.timeline ▸ h.keys
  past := hsame.timeline ▸ h.past
  future := hsame.timeline ▸ h.future
  deadEnds := hsame.deadEnds ▸ h.deadEnds
  nodup := hsame.deadEnds ▸ h.nodup
  projections := by rw [hsame.projections, hsame.deadEnds]; exact h.projections
  deepest := hsame.deepest ▸ h.deepest

/-- Only the outermost ticks have a neighbour without a frame. -/
theorem edge (h : Extent s e a b) {offset : Int} {timing : Timing} {current : Frame}
    (htiming : timing ≠ .now) (hnew : e.timeline.frame? (offset + timing.step) = none)
    (hcurrent : e.timeline.frame? offset = some current) :
    (timing = .past ∧ offset = -(a : Int)) ∨ (timing = .future ∧ offset = b) := by
  obtain ⟨hlow, hhigh⟩ := (h.frame_iff offset).mp ⟨current, hcurrent⟩
  have hout : ¬ (-(a : Int) ≤ offset + timing.step ∧ offset + timing.step ≤ b) := by
    intro hin
    obtain ⟨frame, hframe⟩ := (h.frame_iff _).mpr hin
    rw [hnew] at hframe
    cases hframe
  cases timing with
  | now => exact absurd rfl htiming
  | past =>
    simp only [Timing.step] at hout
    exact Or.inl ⟨rfl, by omega⟩
  | future =>
    simp only [Timing.step] at hout
    exact Or.inr ⟨rfl, by omega⟩

/-- A closed tick is the next one on its side. -/
theorem closing (h : Extent s e a b) {tick : Int} (hnew : tick ∉ e.deadEnds)
    (hedge : tick = -(a : Int) - 1 ∨ tick = b + 1) : Extent s (e.closing tick) a b where
  frame_iff := h.frame_iff
  keys := h.keys
  past := h.past
  future := h.future
  deadEnds := by
    intro k hk
    rcases List.mem_cons.mp hk with rfl | hk
    · exact hedge
    · exact h.deadEnds k hk
  nodup := List.nodup_cons.mpr ⟨hnew, h.nodup⟩
  projections := by
    have hle := h.projections
    simp only [Evaluator.closing, List.length_cons]
    omega
  deepest := h.deepest

theorem frame?_eq_none (h : Extent s e a b) (tick : Int)
    (hout : tick < -(a : Int) ∨ (b : Int) < tick) : e.timeline.frame? tick = none := by
  cases hframe : e.timeline.frame? tick with
  | none => rfl
  | some frame =>
    have hin := (h.frame_iff tick).mp ⟨frame, hframe⟩
    omega

/-- Imagining the next tick in the past moves that side out by one. -/
theorem imaginePast (h : Extent s e a b) (hs : s.Steady) {current : Frame} {projected : Circuit}
    (hdead : -(a : Int) - 1 ∉ e.deadEnds) (hcurrent : e.timeline.frame? (-(a : Int)) = some current)
    (hproject : current.circuit.project e.validate = .ok projected)
    (hfresh : projected.sameState current.circuit = false) :
    Extent s (e.imagining (-(a : Int) - 1) projected) (a + 1) b := by
  have hnew := h.frame?_eq_none (-(a : Int) - 1) (by omega)
  -- one projection more, and the side it is counted against is one tick longer
  have hge := h.past.recorded_le
  have hprojections := h.projections
  have hdeepest := h.deepest
  refine ⟨?_, ?_, ?_, h.future.keep hnew projected, ?_, h.nodup, ?_, ?_⟩
  · intro k
    rw [Evaluator.imagining, Timeline.frame?_imagine]
    by_cases hk : k = -(a : Int) - 1
    · rw [if_pos hk]
      exact ⟨fun _ => by omega, fun _ => ⟨_, rfl⟩⟩
    · rw [if_neg hk, h.frame_iff]
      omega
  · intro k frame hframe
    rw [Evaluator.imagining, Timeline.frame?_imagine] at hframe
    split at hframe
    next hk =>
      cases hframe
      rw [hs.past k (by omega), ← hs.past (-(a : Int)) (by omega)]
      exact (Circuit.keys_project hproject).trans (h.keys _ _ hcurrent)
    next => exact h.keys k frame hframe
  · have hback : -(a : Int) = -1 * (a : Nat) := by omega
    exact h.past.extend (by omega) hnew (hback ▸ hcurrent) hproject hfresh
  · intro k hk
    rcases h.deadEnds k hk with rfl | hhigh
    · exact absurd hk hdead
    · exact Or.inr hhigh
  · simp only [Evaluator.imagining]
    omega
  · simp only [Evaluator.imagining]
    omega

/-- Imagining the next tick in the future moves that side out by one. -/
theorem imagineFuture (h : Extent s e a b) (hs : s.Steady) {current : Frame} {projected : Circuit}
    (hdead : (b : Int) + 1 ∉ e.deadEnds) (hcurrent : e.timeline.frame? b = some current)
    (hproject : current.circuit.project e.validate = .ok projected)
    (hfresh : projected.sameState current.circuit = false) :
    Extent s (e.imagining ((b : Int) + 1) projected) a (b + 1) := by
  have hnew := h.frame?_eq_none ((b : Int) + 1) (by omega)
  have hge := h.future.recorded_le
  have hprojections := h.projections
  have hdeepest := h.deepest
  refine ⟨?_, ?_, h.past.keep hnew projected, ?_, ?_, h.nodup, ?_, ?_⟩
  · intro k
    rw [Evaluator.imagining, Timeline.frame?_imagine]
    by_cases hk : k = (b : Int) + 1
    · rw [if_pos hk]
      exact ⟨fun _ => by omega, fun _ => ⟨_, rfl⟩⟩
    · rw [if_neg hk, h.frame_iff]
      omega
  · intro k frame hframe
    rw [Evaluator.imagining, Timeline.frame?_imagine] at hframe
    split at hframe
    next hk =>
      cases hframe
      rw [hs.future k (by omega), ← hs.future b (by omega)]
      exact (Circuit.keys_project hproject).trans (h.keys _ _ hcurrent)
    next => exact h.keys k frame hframe
  · have hfront : (b : Int) = 1 * (b : Nat) := by omega
    exact h.future.extend (by omega) hnew (hfront ▸ hcurrent) hproject hfresh
  · intro k hk
    rcases h.deadEnds k hk with hlow | rfl
    · exact Or.inl hlow
    · exact absurd hk hdead
  · simp only [Evaluator.imagining]
    omega
  · simp only [Evaluator.imagining]
    omega

/-- Imagining a tick moves the side out on which it lies. -/
theorem imagining (h : Extent s e a b) (hs : s.Steady) {offset : Int} {timing : Timing}
    {current : Frame} {projected : Circuit} (hnext : Projects e offset timing current projected)
    (hfresh : e.isStale offset timing.step current.circuit projected = false) :
    ∃ a' b', Extent s (e.imagining (offset + timing.step) projected) a' b' := by
  -- that the tick is not that of the far side is not needed for the bound
  rw [isStale, Bool.or_eq_false_iff] at hfresh
  rcases h.edge hnext.timing_ne hnext.new hnext.known with ⟨rfl, rfl⟩ | ⟨rfl, rfl⟩
  · exact ⟨_, _, h.imaginePast hs hnext.not_dead hnext.known hnext.project hfresh.1⟩
  · exact ⟨_, _, h.imagineFuture hs hnext.not_dead hnext.known hnext.project hfresh.1⟩

theorem closed_le (h : Extent s e a b) : e.deadEnds.length ≤ 2 := by
  -- no tick is closed twice, and there is one to close on each side
  have hsub : e.deadEnds ⊆ [-(a : Int) - 1, (b : Int) + 1] := by
    intro k hk
    rcases h.deadEnds k hk with rfl | rfl <;> simp
  exact (List.subperm_of_subset h.nodup hsub).length_le

end Extent

/-- Every walk keeps within an extent of the same scope. -/
theorem Walk.extent {s : Scope} (hs : s.Steady) {fuel : Nat} {task : Task} {e e' : Evaluator}
    {answer : Except Fault Peak} (h : Walk fuel task e answer e') {a b : Nat}
    (hextent : Extent s e a b) : ∃ a' b', Extent s e' a' b' := by
  refine h.keeps (P := fun e => ∃ a b, Extent s e a b) ⟨?_, ?_, ?_⟩ ⟨a, b, hextent⟩
  · rintro e e' hsame ⟨a, b, hextent⟩
    exact ⟨a, b, hextent.of_same hsame⟩
  · rintro e offset timing current projected hnext - ⟨a, b, hextent⟩
    rcases hextent.edge hnext.timing_ne hnext.new hnext.known with ⟨rfl, rfl⟩ | ⟨rfl, rfl⟩
    · exact ⟨a, b, hextent.closing hnext.not_dead (Or.inl rfl)⟩
    · exact ⟨a, b, hextent.closing hnext.not_dead (Or.inr rfl)⟩
  · rintro e offset timing current projected hnext hfresh ⟨a, b, hextent⟩
    exact hextent.imagining hs hnext hfresh

end Evaluator

end PulseCircuit
