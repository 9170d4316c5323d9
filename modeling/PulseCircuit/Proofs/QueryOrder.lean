import PulseCircuit.Proofs.Remembering
import PulseCircuit.Proofs.SameTick

/-!
# The order of queries

An evaluator that has answered some queries gives the same answer to another one as a fresh evaluator does,
if this query settles and the evaluators are straight (`History.reply_asked`). With a recorded tick around the
present they always are (`Asked.straight`). Neither condition can be left out:

* on a loop on which pings move, what is remembered of one cell adds to what another one finds
  (`pinged`, `reply_depends_on_order`);
* without recorded ticks, one neighbour of the present closes the other (`nested`).
-/

namespace PulseCircuit

open Circuit Evaluator

namespace Evaluator

/-! ## Closed ticks -/

/-- A closed tick has no frame. -/
theorem Walk.frameless_deadEnds {fuel : Nat} {task : Task} {e e' : Evaluator}
    {answer : Except Fault Peak} (h : Walk fuel task e answer e')
    (hclosed : ∀ tick ∈ e.deadEnds, e.timeline.frame? tick = none) :
    ∀ tick ∈ e'.deadEnds, e'.timeline.frame? tick = none := by
  refine h.keeps (P := fun e => ∀ tick ∈ e.deadEnds, e.timeline.frame? tick = none) ⟨?_, ?_, ?_⟩
    hclosed
  · intro e e' hsame hclosed tick htick
    rw [hsame.timeline]
    exact hclosed tick (hsame.deadEnds ▸ htick)
  · intro e offset timing current projected hnext _ hclosed tick htick
    rcases List.mem_cons.mp htick with rfl | htick
    · exact hnext.new
    · exact hclosed tick htick
  · intro e offset timing current projected hnext _ hclosed tick htick
    have hne : tick ≠ offset + timing.step := by
      rintro rfl
      exact hnext.not_dead htick
    rw [imagining, Timeline.frame?_imagine, if_neg hne]
    exact hclosed tick htick

end Evaluator

namespace History

variable {h : History} {sides : Timing → Bool}

/-! ## After any queries -/

/-- What is known of an evaluator that was asked some queries: it has not lost anything, nothing is
pending, and its knowledge is right if it is straight. -/
structure Asked (h : History) (sides : Timing → Bool) (e : Evaluator) : Prop where
  grows : Grows h.fresh e
  idle : ∀ key, e.pendingDepth? key = none
  closed : ∀ tick ∈ e.deadEnds, e.timeline.frame? tick = none
  honest : Straight sides e → Honest h sides e

namespace Asked

theorem fresh (h : History) (sides : Timing → Bool) : Asked h sides h.fresh where
  grows := .refl _
  idle _ := rfl
  closed := by simp [History.fresh, ofHistory]
  honest _ := by
    refine ⟨Follows.fresh h sides, ?_, ?_⟩
    · intro key depth hpending
      cases hpending
    · intro offset id colour peak hdone
      cases hdone

variable {e : Evaluator}

theorem frame (hasked : Asked h sides e) : e.timeline.frame? 0 = some ⟨.given, h.present⟩ :=
  hasked.grows.frame _ _ h.present_frame

theorem walk (hasked : Asked h sides e) {fuel : Nat} {id : CellId} {colour : Colour}
    {timing : Timing} {answer : Except Fault Peak} {e' : Evaluator}
    (hwalk : Walk fuel (.look 0 id colour timing) e answer e') : Asked h sides e' where
  grows := hasked.grows.trans hwalk.grows
  idle key := (hwalk.restored.pending key).trans (hasked.idle key)
  closed := hwalk.frameless_deadEnds hasked.closed
  honest hstraight := by
    have hhonest := hasked.honest (hwalk.grows.straight hstraight)
    refine hhonest.walk hwalk hstraight ?_
    refine (hwalk.right ⟨_, hasked.frame⟩ hhonest hstraight).2 fun n key depth hpending => ?_
    rw [hasked.idle] at hpending
    cases hpending

theorem queries (h : History) (sides : Timing → Bool) (queries : List Query) :
    Asked h sides (h.fresh.asked queries) :=
  asked_invariant (fun hwalk hasked => hasked.walk hwalk) (fresh h sides) queries

theorem next (hasked : Asked h sides e) (q : Query) : Asked h sides (e.next q) := by
  rcases e.reply_cases q with ⟨hsame, -⟩ | ⟨present, cell, -, -, hwalk⟩
  · rw [hsame]
    exact hasked
  · exact hasked.walk hwalk

/-- A recorded neighbour of the present is neither closed nor imagined, so the evaluator is straight. -/
theorem straight (hasked : Asked h sides e) (hrecorded : h.past ≠ [] ∨ h.future ≠ []) :
    Straight sides e := by
  have hgiven : ∀ (side : Timing) (n : Nat) c, side ≠ .now →
      (h.present :: h.given side)[n]? = some c →
      e.timeline.frame? (side.step * n) = some ⟨.given, c⟩ := by
    intro side n c hside hc
    exact hasked.grows.frame _ _ ((Follows.fresh h sides).given side n c hside hc)
  have hone : ∃ side : Timing, side ≠ .now ∧ ∃ c, e.timeline.frame? side.step = some ⟨.given, c⟩ := by
    have hfirst : ∀ side : Timing, side ≠ .now → h.given side ≠ [] →
        ∃ c, e.timeline.frame? side.step = some ⟨.given, c⟩ := by
      intro side hside hne
      rcases List.exists_cons_of_ne_nil hne with ⟨c, rest, hcons⟩
      have hframe := hgiven side 1 c hside (by rw [hcons]; rfl)
      rw [Int.natCast_one, Int.mul_one] at hframe
      exact ⟨c, hframe⟩
    rcases hrecorded with hpast | hfuture
    · exact ⟨.past, by decide, hfirst .past (by decide) hpast⟩
    · exact ⟨.future, by decide, hfirst .future (by decide) hfuture⟩
  rcases hone with ⟨recorded, hrecorded, c, hframe⟩
  intro side _ hdead frame hacross
  have hclosed := hasked.closed side.step hdead
  -- the recorded neighbour is the one across, as the other one is closed
  have hside : -side.step = recorded.step ∨ side = .now := by
    cases side <;> cases recorded <;> simp_all [Timing.step]
  rcases hside with heq | rfl
  · rw [heq, hframe] at hacross
    cases hacross
    rfl
  · have hpresent := hasked.frame
    rw [show Timing.now.step = 0 from rfl, hpresent] at hclosed
    cases hclosed

/-- A query that settles is answered with what it settles on. -/
theorem reply_eq (hasked : Asked h sides e) {q : Query} (hstraight : Straight sides (e.next q))
    {answer : Except Fault Peak}
    (hsettles : Settles (h.chart sides) h.fresh.depthBound (.look 0 q.id q.colour q.timing) answer) :
    e.reply q = (h.present.cell q.id >>= fun _ => answer) := by
  rcases e.reply_cases q with ⟨-, ⟨hnone, -⟩ | ⟨frame, fault, hframe, hcell, hreply⟩⟩ |
    ⟨frame, cell, hframe, hcell, hwalk⟩
  · rw [hasked.frame] at hnone
    cases hnone
  · rw [hasked.frame] at hframe
    cases hframe
    rw [hreply, hcell]
    rfl
  · rw [hasked.frame] at hframe
    cases hframe
    rw [hcell]
    have hhonest := hasked.honest (hwalk.grows.straight hstraight)
    -- nothing is pending between queries, so no condition is left on what is
    have hwaits : Waits (h.chart sides) h.fresh.depthBound e := by
      intro key depth hpending
      rw [hasked.idle] at hpending
      cases hpending
    rcases (hwalk.right ⟨_, hasked.frame⟩ hhonest hstraight).1 _ _ hsettles hwaits with
      ⟨hanswer | ⟨hcut, -⟩, -⟩
    · exact hanswer
    · -- it settles in the depth a fresh evaluator allows, and this one allows no less
      have hle := hasked.grows.depthBound
      omega

end Asked

/-! ## Raw pulses in the present -/

/-- In one colour there are only raw pulses, nothing turns them into others, and no wire that admits the colour
leaves the present. -/
structure Plain (c : Circuit) (colour : Colour) : Prop where
  linked : c.Linked
  pulse : ∀ id cell, c.cell id = .ok cell →
    cell.fire.get colour = none ∨ cell.fire.get colour = some .raw
  kind : ∀ id cell, c.cell id = .ok cell → cell.kind ≠ .creation ∧ cell.kind ≠ .destruction
  timing : ∀ id wire, c.wire id = .ok wire → wire.colour.admits colour = true → wire.timing = .now

/-- An input looks at the present. -/
theorem Plain.flip_step {c : Circuit} {colour : Colour} (hplain : Plain c colour) {id : WireId} {wire : Wire}
    (hwire : c.wire id = .ok wire) (hadmits : wire.colour.admits colour = true) :
    (0 : Int) + wire.timing.flip.step = 0 := by
  rw [hplain.timing _ _ hwire hadmits]
  rfl

/-- The keys of all cells in the present. -/
def presentKeys (c : Circuit) (colour : Colour) : List MemoKey :=
  c.cells.map fun cell => ⟨0, cell.id, colour⟩

theorem mem_presentKeys {c : Circuit} (hkeyed : c.Keyed) (colour : Colour) {id : CellId} {cell : Cell}
    (hcell : c.cell id = .ok cell) : ⟨0, id, colour⟩ ∈ presentKeys c colour :=
  mem_keysIn hkeyed 0 colour hcell

theorem calm_presentKeys {colour : Colour} (hplain : Plain h.present colour) :
    Calm (h.chart sides) (presentKeys h.present colour) := by
  intro key hkey
  rcases List.mem_map.mp hkey with ⟨cell, hmem, rfl⟩
  have hkeyed := hplain.linked.keyed
  have hcell : h.present.cell cell.id = .ok cell :=
    cell_ok_iff.mpr ((mem_cells_iff hkeyed).mp hmem)
  have hlinks := hplain.linked.toWellLinked
  refine ⟨h.present, rfl, Or.inr ⟨cell, hcell, ?_, ?_⟩⟩
  · rcases hplain.pulse _ _ hcell with hnone | hraw
    · rw [hnone]
      exact Or.inl rfl
    · rw [hraw]
      exact Or.inr rfl
  · intro input hinput
    -- links that agree lead to a wire that is there, and from it to a cell that is there
    rcases (hlinks.mem_inputs_iff _ _ _ hcell).mp hinput with ⟨wire, hwire, -⟩
    rcases hlinks.source_live _ _ hwire with ⟨source, hsource⟩
    have hid := id_of_cell? hkeyed (cell_ok_iff.mp hsource)
    refine ⟨wire, hwire, fun hadmits => ⟨source, hsource, fun _ => hplain.kind _ _ hsource, ?_⟩⟩
    rw [hplain.flip_step hwire hadmits, hid]
    exact Or.inr ⟨h.present, rfl, mem_presentKeys hkeyed _ hsource⟩

theorem length_presentKeys_lt (h : History) (colour : Colour) :
    (presentKeys h.present colour).length < h.fresh.depthBound :=
  length_keysIn_lt h.present_frame 0 colour

/-- Where only raw pulses move in the present, a query about a live cell settles on whether one of them gets
there. -/
theorem Plain.settles {colour : Colour} (hplain : Plain h.present colour) {id : CellId} {cell : Cell}
    (hcell : h.present.cell id = .ok cell) :
    (Carries (h.chart sides) anywhere (.ask 0 id colour) ∧
        Settles (h.chart sides) h.fresh.depthBound (.look 0 id colour .now) (.ok .raw)) ∨
      (¬ Carries (h.chart sides) anywhere (.ask 0 id colour) ∧
        Settles (h.chart sides) h.fresh.depthBound (.look 0 id colour .now) (.ok .nothing)) := by
  have hkey := mem_presentKeys hplain.linked.keyed colour hcell
  have hlength := length_presentKeys_lt h colour
  by_cases hcarries : Carries (h.chart sides) anywhere (.ask 0 id colour)
  · exact Or.inl ⟨hcarries, .onward rfl (.carried (calm_presentKeys hplain) hkey hlength hcarries)⟩
  · exact Or.inr ⟨hcarries, .onward rfl (.quiet (calm_presentKeys hplain) hkey hlength hcarries)⟩

/-- Nothing has to be trusted where no side is looked at. -/
theorem straight_untrusted (e : Evaluator) : Straight (fun _ => false) e := by
  intro side htrusted
  cases htrusted

/-! ## Any order -/

/-- A query that settles has one answer, whatever was asked before. Without recorded ticks this takes
evaluators that are straight on the sides it looks at. -/
theorem reply_asked (h : History) (sides : Timing → Bool) (queries : List Query) (q : Query)
    {answer : Except Fault Peak}
    (hsettles : Settles (h.chart sides) h.fresh.depthBound (.look 0 q.id q.colour q.timing) answer)
    (hsides : h.past = [] → h.future = [] →
      Straight sides ((h.fresh.asked queries).next q) ∧ Straight sides (h.fresh.next q)) :
    (h.fresh.asked queries).reply q = h.fresh.reply q ∧
      h.fresh.reply q = (h.present.cell q.id >>= fun _ => answer) := by
  have hshared := Asked.queries h sides queries
  have hfresh := Asked.fresh h sides
  have hstraight : Straight sides ((h.fresh.asked queries).next q) ∧ Straight sides (h.fresh.next q) := by
    by_cases hrecorded : h.past ≠ [] ∨ h.future ≠ []
    · exact ⟨(hshared.next q).straight hrecorded, (hfresh.next q).straight hrecorded⟩
    · rw [not_or, not_not, not_not] at hrecorded
      exact hsides hrecorded.1 hrecorded.2
  have hanswer := hfresh.reply_eq hstraight.2 hsettles
  exact ⟨(hshared.reply_eq hstraight.1 hsettles).trans hanswer.symm, hanswer⟩

/-- Two relays fire each other. One of them is lit, and fires a creation cell at a slot. -/
def clock : History where
  validate := true
  present := Circuit.initial.performAll true
    [.createCell .root .relay .origin, .createCell .root .relay .origin,
      .createCell .root .creation .origin, .createCell .root .slot .origin, .fireCell ⟨1⟩ .red,
      .createWire ⟨2⟩ ⟨1⟩ .any .now, .createWire ⟨1⟩ ⟨2⟩ .any .now, .createWire ⟨1⟩ ⟨3⟩ .any .now,
      .createWire ⟨3⟩ ⟨4⟩ .any .now]
  past := []
  future := []

/-- The keys of the loop and of the creation cell. -/
def clockKeys : List MemoKey := [⟨0, ⟨1⟩, .red⟩, ⟨0, ⟨2⟩, .red⟩, ⟨0, ⟨3⟩, .red⟩]

theorem calm_clockKeys : Calm (clock.chart fun _ => true) clockKeys := by
  have hfold : ∀ {target : Cell} {input : WireId} {peak : Peak}, (peak = .nothing ∨ peak = .raw) →
      target.inputs = [input] →
      CalmInput (clock.chart fun _ => true) clockKeys clock.present 0 .red input →
      CalmTask (clock.chart fun _ => true) clockKeys
        (.fold clock.present 0 target .red target.inputs peak) := by
    intro target input peak hpeak hinputs hinput
    rw [hinputs]
    exact ⟨hpeak, by simpa using hinput⟩
  refine List.forall_mem_cons.mpr ⟨?_, List.forall_mem_cons.mpr ⟨?_, List.forall_mem_cons.mpr
    ⟨?_, List.forall_mem_nil _⟩⟩⟩
  · exact ⟨_, rfl, Or.inr ⟨_, rfl, hfold (Or.inr rfl) rfl
      ⟨_, rfl, fun _ => ⟨_, rfl, fun _ => by decide, Or.inr ⟨_, rfl, by decide⟩⟩⟩⟩⟩
  · exact ⟨_, rfl, Or.inr ⟨_, rfl, hfold (Or.inl rfl) rfl
      ⟨_, rfl, fun _ => ⟨_, rfl, fun _ => by decide, Or.inr ⟨_, rfl, by decide⟩⟩⟩⟩⟩
  · exact ⟨_, rfl, Or.inr ⟨_, rfl, hfold (Or.inl rfl) rfl
      ⟨_, rfl, fun _ => ⟨_, rfl, fun _ => by decide, Or.inr ⟨_, rfl, by decide⟩⟩⟩⟩⟩

theorem carries_clock : Carries (clock.chart fun _ => true) anywhere (.ask 0 ⟨3⟩ .red) := by
  have hlit : Carries (clock.chart fun _ => true) anywhere (.ask 0 ⟨1⟩ .red) :=
    .ask (fun h => h) (.gather rfl rfl .here)
  exact .ask (fun h => h) (.gather rfl rfl (.head rfl rfl rfl (.look rfl hlit)))

theorem reply_asked_clock :
    (clock.fresh.asked [⟨⟨2⟩, .red, .now⟩, ⟨⟨1⟩, .red, .now⟩]).reply ⟨⟨4⟩, .red, .now⟩ =
        clock.fresh.reply ⟨⟨4⟩, .red, .now⟩ ∧
      clock.fresh.reply ⟨⟨4⟩, .red, .now⟩ =
        .ok (.success (.creation (some ⟨.recording, .origin⟩))
          [.modify ⟨4⟩ ⟨some .recording, none, none⟩, .tag ⟨4⟩ .justCreated] true) := by
  have hcreation : Settles (clock.chart fun _ => true) 5 (.ask 0 ⟨3⟩ .red) (.ok .raw) :=
    .carried calm_clockKeys (by decide) (by decide) carries_clock
  have hslot : Settles (clock.chart fun _ => true) 6 (.look 0 ⟨4⟩ .red .now) _ :=
    .onward rfl (.descend (.gather rfl rfl rfl (.settle rfl rfl rfl (.onward rfl hcreation) rfl)))
  have hdeep : 6 ≤ clock.fresh.depthBound := by decide
  have hopen : ∀ {e : Evaluator}, e.deadEnds = [] → Straight (fun _ => true) e := by
    intro e hnone side _ hdead
    rw [hnone] at hdead
    cases hdead
  have hreply := reply_asked clock _ [⟨⟨2⟩, .red, .now⟩, ⟨⟨1⟩, .red, .now⟩] ⟨⟨4⟩, .red, .now⟩
    (hslot.mono hdeep) fun _ _ => ⟨hopen rfl, hopen rfl⟩
  exact ⟨hreply.1, hreply.2.trans rfl⟩

/-- Two relays fire each other. A ping comes to one of them, behind the input from the other one. -/
def pinged : History where
  validate := true
  present := Circuit.initial.performAll true
    [.createCell .root .relay .origin, .createCell .root .relay .origin,
      .createCell .root .relay .origin, .fire ⟨3⟩ .red .ping, .createWire ⟨2⟩ ⟨1⟩ .any .now,
      .createWire ⟨3⟩ ⟨1⟩ .any .now, .createWire ⟨1⟩ ⟨2⟩ .any .now]
  past := []
  future := []

/-- In general the order does matter: the peak that is remembered of the second relay holds a pong of the
first one, which a fresh evaluator does not see when it comes round the loop. -/
theorem reply_depends_on_order :
    ¬ ∀ (h : History) (queries : List Query) (q : Query),
      (∀ c ∈ h.present :: (h.past ++ h.future), Reachable c) →
      (h.fresh.asked queries).reply q = h.fresh.reply q := by
  intro hall
  have hreachable : ∀ c ∈ pinged.present :: (pinged.past ++ pinged.future), Reachable c := by
    intro c hc
    rw [List.mem_singleton.mp hc]
    exact .performAll .initial true _
  have hsame := hall pinged [⟨⟨2⟩, .red, .now⟩] ⟨⟨1⟩, .red, .now⟩ hreachable
  have hshared : (pinged.fresh.asked [⟨⟨2⟩, .red, .now⟩]).reply ⟨⟨1⟩, .red, .now⟩ =
      .ok (.success .ping [.pong ⟨1⟩, .pong ⟨2⟩, .pong ⟨1⟩] false) := rfl
  have hfresh : pinged.fresh.reply ⟨⟨1⟩, .red, .now⟩ = .ok (.success .ping [.pong ⟨1⟩] false) := rfl
  rw [hshared, hfresh] at hsame
  simp at hsame

/-- A lit relay in a lit relay in the lit root. -/
def nested : History where
  validate := true
  present := Circuit.initial.performAll true
    [.createCell .root .relay .origin, .createCell ⟨1⟩ .relay .origin, .fireCell .root .red,
      .fireCell ⟨1⟩ .red, .fireCell ⟨2⟩ .red]
  past := []
  future := []

example : nested.fresh.reply ⟨⟨2⟩, .red, .future⟩ = .ok .raw := rfl

example : (nested.fresh.asked [⟨⟨2⟩, .red, .past⟩]).reply ⟨⟨2⟩, .red, .future⟩ = .ok .nothing := rfl

end History

end PulseCircuit
