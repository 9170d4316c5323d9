import PulseCircuit.Proofs.Chart
import PulseCircuit.Proofs.Consistent

/-!
# Questions that find no cell

An evaluator is asked about cells of the present, and goes over wires to cells of other ticks, which may have
lost some cells and gained others. Where it comes to a tick that does not have a cell, the cell does not fire
there, except in the present: there the question fails. So it fails only if a recorded neighbour of the
present has a wire that leads back to a cell the present has lost (`History.Forgotten`), and in no other way
(`Walk.excused`, `Serves.reply`).
-/

namespace PulseCircuit

open Circuit Evaluator

namespace History

/-- The present does not have the cell, but a recorded neighbour of the present has a wire that starts there
and leads back into the present. -/
def Forgotten (h : History) (id : CellId) : Prop :=
  (∀ cell, h.present.cell id ≠ .ok cell) ∧
    ∃ side snapshot w wire, (h.given side).head? = some snapshot ∧ snapshot.wire w = .ok wire ∧
      wire.source = id ∧ wire.timing = side

/-- An answer that is no fault but the absence of a forgotten cell, or the end of the allowed depth. -/
def Excused (h : History) (answer : Except Fault Peak) : Prop :=
  (∃ peak, answer = .ok peak) ∨ (∃ id, answer = .error (.endless id)) ∨
    ∃ id, h.Forgotten id ∧ answer = .error (.notFound id.toId)

/-- The id is one of a cell, and in the present the cell is there or forgotten. -/
def Names (h : History) (tick : Int) (id : CellId) : Prop :=
  id.toId.noun = .cell ∧
    (tick = 0 → (∃ cell, h.present.cell? id = some cell) ∨ h.Forgotten id)

end History

namespace Evaluator

variable {h : History} {e e' : Evaluator}

/-- What holds of an evaluator for sound circuits whatever it is asked: its frames show sound circuits, as far
as the given ones allow, and the given ones among them. -/
structure Serves (h : History) (e : Evaluator) : Prop where
  grows : Grows h.fresh e
  sound : e.Throughout Circuit.Sound
  extent : ∃ a b, Extent (Scope.ofHistory h.present h.past h.future) e a b

namespace Serves

theorem fresh {h : History}
    (hgiven : ∀ c ∈ h.present :: (h.past ++ h.future), c.Sound ∧ c.Placed) : Serves h h.fresh where
  grows := .refl _
  sound := throughout_ofHistory (fun c hc => (hgiven c hc).1) h.validate
  extent := ⟨_, _, extent_ofHistory
    (fun c hc => ⟨(hgiven c hc).1.linked.rooted, (hgiven c hc).2⟩) h.validate⟩

theorem of_same (hserves : Serves h e) (hsame : SameTicks e e') : Serves h e' where
  grows := hserves.grows.trans (grows_of_same hsame)
  sound := fun tick frame hframe => hserves.sound tick frame (hsame.timeline ▸ hframe)
  extent := by
    obtain ⟨a, b, hextent⟩ := hserves.extent
    exact ⟨a, b, hextent.of_same hsame⟩

theorem imagining (hserves : Serves h e) {offset : Int} {timing : Timing} {current : Frame}
    {projected : Circuit} (hnext : Projects e offset timing current projected)
    (hfresh : e.isStale offset timing.step current.circuit projected = false) :
    Serves h (e.imagining (offset + timing.step) projected) where
  grows := hserves.grows.trans (grows_imagining e hnext.new projected)
  sound := hserves.sound.imagining ((hserves.sound _ _ hnext.known).of_project hnext.project) _
  extent := by
    obtain ⟨a, b, hextent⟩ := hserves.extent
    exact hextent.imagining (Scope.steady_ofHistory ..) hnext hfresh

theorem frame_present (hserves : Serves h e) : e.timeline.frame? 0 = some ⟨.given, h.present⟩ :=
  hserves.grows.frame _ _ h.present_frame

theorem present_sound (hserves : Serves h e) : h.present.Sound :=
  hserves.sound _ _ hserves.frame_present

/-- With nothing recorded on a side the tick there has the rows of the present. -/
theorem keys_neighbour (hserves : Serves h e) {side : Timing} (hgiven : h.given side = [])
    {frame : Frame} (hframe : e.timeline.frame? side.step = some frame) :
    frame.circuit.live.keys = h.present.live.keys := by
  obtain ⟨a, b, hextent⟩ := hserves.extent
  have hkeys := hextent.keys _ _ hframe
  have hsame : givenAt h.present h.past h.future side.step = h.present := by
    cases side with
    | now => simp [Timing.step, givenAt, lastGiven]
    | past =>
      have hpast : h.past = [] := hgiven
      rw [hpast, givenAt_past (by decide)]
      rfl
    | future =>
      have hfuture : h.future = [] := hgiven
      rw [hfuture, givenAt_future (by decide)]
      rfl
  rw [hkeys]
  exact congrArg (fun c : Circuit => c.live.keys) hsame

/-- A recorded neighbour of the present is there from the beginning. -/
theorem frame_neighbour (hserves : Serves h e) {side : Timing} (hside : side ≠ .now) {c : Circuit}
    {rest : List Circuit} (hgiven : h.given side = c :: rest) :
    e.timeline.frame? side.step = some ⟨.given, c⟩ := by
  have hframe := (Follows.fresh h fun _ => true).given side 1 c hside (by rw [hgiven]; rfl)
  rw [Int.natCast_one, Int.mul_one] at hframe
  exact hserves.grows.frame _ _ hframe

/-- A wire leads to a cell that is there, or to a forgotten one. -/
theorem names_source (hserves : Serves h e) {offset : Int} {frame : Frame}
    (hframe : e.timeline.frame? offset = some frame) {w : WireId} {wire : Wire} {source : Cell}
    (hwire : frame.circuit.wire? w = some wire)
    (hsource : frame.circuit.cell? wire.source = some source) :
    h.Names (offset + wire.timing.flip.step) source.id := by
  have hsound := hserves.sound _ _ hframe
  have hid := id_of_cell? hsound.linked.keyed hsource
  have hnoun := hsound.owned.noun_eq_cell hsource
  rw [hid]
  refine ⟨hnoun, fun hzero => ?_⟩
  rw [Timing.step_flip] at hzero
  obtain rfl : offset = wire.timing.step := by omega
  by_cases hnow : wire.timing = .now
  · rw [hnow, Timing.step, hserves.frame_present] at hframe
    cases hframe
    exact Or.inl ⟨source, hsource⟩
  cases hgiven : h.given wire.timing with
  | nil =>
    have hmem := mem_keys_of_cell? hsource
    rw [hserves.keys_neighbour hgiven hframe] at hmem
    exact Or.inl (hserves.present_sound.owned.live_of_mem_keys hnoun hmem)
  | cons snapshot rest =>
    rw [hserves.frame_neighbour hnow hgiven] at hframe
    cases hframe
    by_cases hlive : ∃ cell, h.present.cell? wire.source = some cell
    · exact Or.inl hlive
    · refine Or.inr ⟨fun cell hcell => hlive ⟨cell, cell_ok_iff.mp hcell⟩, wire.timing, snapshot, w, wire,
        ?_, wire_ok_iff.mpr hwire, rfl, rfl⟩
      rw [hgiven]
      rfl

end Serves

/-! ## Walks -/

/-- A task is about cells that are there or forgotten, and folds wires of the tick it is in. -/
def Task.Founded (h : History) (e : Evaluator) : Task → Prop
  | .ask offset id _ => h.Names offset id
  | .compute offset id _ => h.Names offset id
  | .fold c offset _ _ inputs _ =>
    (∃ frame, e.timeline.frame? offset = some frame ∧ frame.circuit = c) ∧
      ∀ input ∈ inputs, ∃ wire, c.wire? input = some wire
  | .look offset id _ timing => h.Names (offset + timing.step) id

theorem Walk.serves {fuel : Nat} {task : Task} {answer : Except Fault Peak}
    (hwalk : Walk fuel task e answer e') (hserves : Serves h e) : Serves h e' where
  grows := hserves.grows.trans hwalk.grows
  sound := hwalk.throughout (fun hc hproject => hc.of_project hproject) hserves.sound
  extent := by
    obtain ⟨a, b, hextent⟩ := hserves.extent
    exact hwalk.extent (Scope.steady_ofHistory ..) hextent

/-- The only fault a walk ends with, other than the end of the allowed depth, is that the present has lost a
cell to which a recorded neighbour leads back. -/
theorem Walk.excused {fuel : Nat} {task : Task} {answer : Except Fault Peak}
    (hwalk : Walk fuel task e answer e') (hserves : Serves h e) (hfounded : task.Founded h e) :
    h.Excused answer := by
  induction hwalk with
  | cut => exact Or.inr (Or.inl ⟨_, rfl⟩)
  | descend _ _ ih => exact ih (hserves.of_same (sameTicks_enter ..)) hfounded
  | lost hframe hcell hhere =>
    obtain ⟨hnoun, hpresent⟩ := hfounded
    have hfault := (hserves.sound _ _ hframe).owned.cell_error hnoun hcell
    rcases hhere with rfl | hother
    · rw [hserves.frame_present] at hframe
      cases hframe
      rcases hpresent rfl with ⟨cell, hlive⟩ | hforgotten
      · rw [cell_ok_iff.mpr hlive] at hcell
        cases hcell
      · exact Or.inr (Or.inr ⟨_, hforgotten, by rw [hfault]⟩)
    · exact absurd hfault (hother _)
  | gather hframe hcell _ _ ih =>
    refine ih (hserves.of_same (sameTicks_counting _)) ⟨⟨_, hframe, rfl⟩, fun input hinput => ?_⟩
    have hlinked := (hserves.sound _ _ hframe).linked
    exact wire?_of_ofWires
      (hlinked.targets.target_of_mem (inputsOf_eq (cell_ok_iff.mp hcell)) hinput)
  | wireless hwire =>
    obtain ⟨wire, hlive⟩ := hfounded.2 _ List.mem_cons_self
    rw [wire_ok_iff.mpr hlive] at hwire
    cases hwire
  | skip _ _ _ ih =>
    exact ih hserves ⟨hfounded.1, fun input hinput => hfounded.2 input (List.mem_cons_of_mem _ hinput)⟩
  | sourceless hwire _ hsource =>
    obtain ⟨⟨frame, hframe, rfl⟩, -⟩ := hfounded
    obtain ⟨source, hlive⟩ := (hserves.sound _ _ hframe).linked.source_live (wire_ok_iff.mp hwire)
    rw [cell_ok_iff.mpr hlive] at hsource
    cases hsource
  | broken hwire _ hsource _ ih =>
    obtain ⟨⟨frame, hframe, rfl⟩, -⟩ := hfounded
    have hnames := hserves.names_source hframe (wire_ok_iff.mp hwire) (cell_ok_iff.mp hsource)
    rcases ih hserves hnames with ⟨peak, hanswer⟩ | ⟨id, hanswer⟩ | ⟨id, hforgotten, hanswer⟩
    · cases hanswer
    · cases hanswer
      exact Or.inr (Or.inl ⟨id, rfl⟩)
    · cases hanswer
      exact Or.inr (Or.inr ⟨id, hforgotten, rfl⟩)
  | proceed _ _ _ hlook _ _ _ ihrest =>
    obtain ⟨⟨frame, hframe, rfl⟩, hinputs⟩ := hfounded
    exact ihrest (hlook.serves hserves) ⟨⟨frame, hlook.grows.frame _ _ hframe, rfl⟩,
      fun input hinput => hinputs input (List.mem_cons_of_mem _ hinput)⟩
  | stay _ ih =>
    refine ih hserves ?_
    rw [Task.Founded, Timing.step, Int.add_zero] at hfounded
    exact hfounded
  | known _ _ _ _ ih => exact ih hserves hfounded
  | unprojectable _ _ _ hcurrent hproject =>
    obtain ⟨d, hd⟩ := (hserves.sound _ _ hcurrent).linked.project_ok _
    rw [hd] at hproject
    cases hproject
  | imagine htiming hdead hnew hcurrent hproject hfresh _ ih =>
    exact ih (hserves.imagining ⟨htiming, hdead, hnew, hcurrent, hproject⟩ hfresh) hfounded
  | reuse | again | frameless | absent | stored | done | settle | deadEnd | adrift | stale =>
    exact Or.inl ⟨_, rfl⟩

/-! ## Queries -/

namespace Serves

theorem next (hserves : Serves h e) (q : Query) : Serves h (e.next q) := by
  rcases e.reply_cases q with ⟨hsame, -⟩ | ⟨_, _, -, -, hwalk⟩
  · rw [hsame]
    exact hserves
  · exact hwalk.serves hserves

/-- A query about a live cell is answered, unless it comes upon a forgotten one. -/
theorem reply (hserves : Serves h e) {q : Query} {cell : Cell}
    (hcell : h.present.cell? q.id = some cell) :
    (∃ peak, e.reply q = .ok peak) ∨ ∃ id, h.Forgotten id ∧ e.reply q = .error (.notFound id.toId) := by
  have hwalk := walk_of_live q hserves.frame_present (cell_ok_iff.mpr hcell)
  have hnames : h.Names (0 + q.timing.step) q.id :=
    ⟨hserves.present_sound.owned.noun_eq_cell hcell, fun _ => Or.inl ⟨_, hcell⟩⟩
  rcases hwalk.excused hserves hnames with hok | ⟨id, hendless⟩ | hforgotten
  · exact Or.inl hok
  · obtain ⟨a, b, hextent⟩ := hserves.extent
    exact absurd hendless (hextent.withinBounds.answers q id)
  · exact Or.inr hforgotten

end Serves

end Evaluator

end PulseCircuit
