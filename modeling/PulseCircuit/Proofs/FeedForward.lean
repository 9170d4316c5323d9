import PulseCircuit.Proofs.PlainRecursion
import PulseCircuit.Proofs.QueryOrder

/-!
# Feed-forward circuits

Where no wires within a tick form a cycle and all others lead the same way through time, a question never
comes back to where it came from. It settles on what plain recursion makes of it (`settles_plain`), and the
evaluator has no reason to look at the other side of the present (`Walk.oneSided`). So whatever is
remembered, pending or closed makes no difference to the answers (`Reachable.answers_plain`).
-/

namespace PulseCircuit

open Circuit Evaluator

namespace Circuit

/-- Each wire stays within a tick, or is one over which questions look to the given side of it. -/
def OneWay (c : Circuit) (side : Timing) : Prop :=
  ∀ w wire, c.wire w = .ok wire → wire.timing = .now ∨ wire.timing = side.flip

/-- Pulses come from one side in time and on no cycles within a tick. -/
structure FeedForward (c : Circuit) (side : Timing) : Prop where
  acyclic : c.Acyclic
  oneWay : c.OneWay side

variable {c d : Circuit} {side : Timing}

theorem OneWay.of_project (h : c.OneWay side) {validate : Bool}
    (hproject : c.project validate = .ok d) : d.OneWay side := by
  intro w wire hwire
  rw [wire_ok_iff, wire?_of_project hproject] at hwire
  exact h w wire (wire_ok_iff.mpr hwire)

theorem OneWay.look (h : c.OneWay side) {w : WireId} {wire : Wire} (hwire : c.wire w = .ok wire) :
    wire.timing.flip = .now ∨ wire.timing.flip = side := by
  rcases h w wire hwire with hnow | hside
  · exact Or.inl (by rw [hnow]; rfl)
  · exact Or.inr (by rw [hside, Timing.flip_flip])

theorem oneWay_of_wires (h : ∀ wire ∈ c.wires, wire.timing = .now ∨ wire.timing = side.flip) :
    c.OneWay side := fun w wire hwire =>
  h wire (mem_wires_iff_exists.mpr ⟨w, wire_ok_iff.mp hwire⟩)

theorem Linked.oneWay_after (h : c.Linked) (honeWay : c.OneWay side) (validate : Bool) (k : Nat) :
    (c.after validate k).OneWay side := by
  intro w wire hwire
  rw [wire_ok_iff, h.wire?_after] at hwire
  exact honeWay w wire (wire_ok_iff.mpr hwire)

end Circuit

namespace Evaluator

/-! ## Settling on plain recursion -/

/-- If each hop settles on what comes over it, the inputs settle on what folding makes of that. -/
theorem Settles.foldAll {T : Int → Prospect} {n : Nat} {c : Circuit} (hlinked : c.Linked)
    {offset : Int} {target : Cell} {colour : Colour} {candidate : Hop → Peak} {inputs : List WireId}
    (hwires : ∀ input ∈ inputs, ∃ wire, c.wire? input = some wire)
    (hlook : ∀ hop ∈ inputs.filterMap (c.hop? target colour),
      Settles T n (.look offset hop.source.id colour hop.wire.timing.flip) (.ok (candidate hop)))
    (peak : Peak) :
    Settles T n (.fold c offset target colour inputs peak)
      (.ok (peak.foldAll candidate (inputs.filterMap (c.hop? target colour)))) := by
  induction inputs generalizing peak with
  | nil => exact .done
  | cons input inputs ih =>
    obtain ⟨wire, hwire⟩ := hwires input List.mem_cons_self
    obtain ⟨source, hsource⟩ := hlinked.source_live hwire
    have hothers : ∀ other ∈ inputs, ∃ wire, c.wire? other = some wire := fun other hother =>
      hwires other (List.mem_cons_of_mem _ hother)
    have hhop := hop?_eq hwire hsource target colour
    cases hadmits : wire.colour.admits colour with
    | false =>
      rw [List.filterMap_cons_none (by simpa [hadmits] using hhop)] at hlook ⊢
      exact .skip (wire_ok_iff.mpr hwire) hadmits (ih hothers hlook peak)
    | true =>
      rw [List.filterMap_cons_some (by simpa [hadmits] using hhop)] at hlook ⊢
      have hfirst := hlook _ List.mem_cons_self
      have hrest := ih hothers fun hop hmem => hlook hop (List.mem_cons_of_mem _ hmem)
      rw [Peak.foldAll]
      split
      next hfinal =>
        exact .settle (wire_ok_iff.mpr hwire) hadmits (cell_ok_iff.mpr hsource) hfirst hfinal
      next hopen =>
        exact .proceed (wire_ok_iff.mpr hwire) hadmits (cell_ok_iff.mpr hsource) hfirst
          (Bool.eq_false_iff.mpr hopen) (hrest _)

end Evaluator

namespace History

variable {validate : Bool} {c : Circuit} {side : Timing}

/-- Only the given side is looked at. -/
def only (side : Timing) : Timing → Bool := fun other => decide (other = side)

theorem chart_only (hside : side ≠ .now) (k : Nat) :
    (alone validate c).chart (only side) (side.step * k) = (alone validate c).aside side k :=
  chart_of_trusted hside (decide_eq_true rfl) k

/-- Looking on by a tick settles on what plain recursion has there, or on nothing where no pulse is left. -/
theorem settles_next (h : c.Linked) (hplaced : c.Placed) (hside : side ≠ .now) {R : Reading} {n k : Nat}
    (hlit : c.LitBefore validate k) {id : CellId} {colour : Colour}
    (hask : c.LitBefore validate (k + 1) → Settles ((alone validate c).chart (only side)) n
      (.ask (side.step * (k + 1 : Nat)) id colour) (.ok (R (k + 1) id colour))) :
    Settles ((alone validate c).chart (only side)) n (.look (side.step * k) id colour side)
      (.ok (if (c.after validate k).isQuiet then .nothing else R (k + 1) id colour)) := by
  have hnext := step_succ side k
  split
  next hquiet =>
    refine .deadEnd ?_
    rw [← hnext, chart_only hside]
    exact aside_of_quiet h hplaced side hlit hquiet
  next hopen =>
    have hlit' := hlit.succ (Bool.eq_false_iff.mpr hopen)
    have hsight : (alone validate c).chart (only side) (side.step * k + side.step) =
        .circuit (c.after validate (k + 1)) := by
      rw [← hnext, chart_only hside]
      exact aside_of_lit h side hlit'
    refine .onward hsight ?_
    rw [← hnext]
    exact hask hlit'

/-- A hop settles on what comes over it, if all cells that are less deep settle on their plain peaks. -/
theorem settles_hop (h : c.Linked) (hplaced : c.Placed) (hside : side ≠ .now)
    (hforward : c.FeedForward side) {R : Reading} {n k : Nat} (hlit : c.LitBefore validate k)
    {id : CellId} {target : Cell} (hcell : (c.after validate k).cell? id = some target)
    {colour : Colour} {hop : Hop} (hhop : hop ∈ (c.after validate k).hops target colour)
    (hask : ∀ {j : Nat} {source : CellId}, c.LitBefore validate j →
      (∃ cell, c.cell? source = some cell) →
      c.plainDepth validate j source < c.plainDepth validate k id →
      Settles ((alone validate c).chart (only side)) n (.ask (side.step * j) source colour)
        (.ok (R j source colour))) :
    Settles ((alone validate c).chart (only side)) n
      (.look (side.step * k) hop.source.id colour hop.wire.timing.flip)
      (.ok (candidate (c.after validate) R k colour hop)) := by
  have hk := h.after validate k
  obtain ⟨input, -, hwire, hsource⟩ := mem_hops hhop
  rw [← id_of_cell? hk.keyed hsource] at hsource
  have hlive := (h.live_after_iff validate k).mp ⟨_, hsource⟩
  rw [candidate]
  split
  next hnow =>
    have hsight : (alone validate c).chart (only side) (side.step * k + Timing.now.step) =
        .circuit (c.after validate k) := by
      rw [Timing.step, Int.add_zero, chart_only hside]
      exact aside_of_lit h side hlit
    have hsettles := hask hlit hlive (h.plainDepth_now hforward.acyclic hcell hhop hnow)
    rw [hnow]
    refine .onward hsight ?_
    rw [Timing.flip, Timing.step, Int.add_zero]
    exact hsettles
  next htimed =>
    have honeWay := h.oneWay_after hforward.oneWay validate k _ _ (wire_ok_iff.mpr hwire)
    rw [honeWay.resolve_left htimed, Timing.flip_flip]
    exact settles_next h hplaced hside hlit fun hlit' =>
      hask hlit' hlive (h.plainDepth_next (hlit' k (Nat.lt_succ_self k)) hop.source.id id)

/-- In each tick before which there are pulses, a cell settles on its plain peak. -/
theorem settles_plain (h : c.Linked) (hplaced : c.Placed) (hside : side ≠ .now)
    (hforward : c.FeedForward side) {R : Reading} (hrecurs : Recurs (c.after validate) R) {n k : Nat}
    (hlit : c.LitBefore validate k) {id : CellId} (hlive : ∃ cell, c.cell? id = some cell)
    (colour : Colour) (hdepth : c.plainDepth validate k id < n) :
    Settles ((alone validate c).chart (only side)) n (.ask (side.step * k) id colour)
      (.ok (R k id colour)) := by
  induction n generalizing k id with
  | zero => exact absurd hdepth (Nat.not_lt_zero _)
  | succ n ih =>
    have hk := h.after validate k
    have hsight : (alone validate c).chart (only side) (side.step * k) =
        .circuit (c.after validate k) := (chart_only hside k).trans (aside_of_lit h side hlit)
    obtain ⟨target, hcell⟩ := (h.live_after_iff validate k).mpr hlive
    have hplain : R k id colour = plainStep (c.after validate) R k id colour := by rw [← hrecurs]
    rw [hplain, plainStep]
    simp only [hcell]
    refine .descend ?_
    cases hfinal : (Peak.ofPulse? (target.fire.get colour) []).isFinal with
    | true => exact .stored hsight (cell_ok_iff.mpr hcell) hfinal
    | false =>
      have hwires : ∀ input ∈ target.inputs, ∃ wire, (c.after validate k).wire? input = some wire :=
        fun input hinput => wire?_of_ofWires (hk.targets.target_of_mem (inputsOf_eq hcell) hinput)
      refine .gather hsight (cell_ok_iff.mpr hcell) hfinal (.foldAll hk hwires ?_ _)
      intro hop hhop
      exact settles_hop h hplaced hside hforward hlit hcell hhop fun hlit' hlive' hlt =>
        ih hlit' hlive' (by omega)

theorem plainBound_le_depthBound (validate : Bool) (c : Circuit) :
    c.plainBound ≤ (alone validate c).fresh.depthBound := by
  have hwidth : c.size ≤ (alone validate c).fresh.timeline.width :=
    Timeline.size_le_width (alone validate c).present_frame
  rw [plainBound, depthBound]
  exact Nat.mul_le_mul (by omega) (by omega)

/-- A query about the present, or the side from which pulses come, settles on a plain peak. -/
theorem settles_query (h : c.Linked) (hplaced : c.Placed) (hside : side ≠ .now)
    (hforward : c.FeedForward side) {R : Reading} (hrecurs : Recurs (c.after validate) R) {q : Query}
    (hlive : ∃ cell, c.cell? q.id = some cell) (htiming : q.timing = .now ∨ q.timing = side) :
    Settles ((alone validate c).chart (only side)) (alone validate c).fresh.depthBound
      (.look 0 q.id q.colour q.timing)
      (.ok (if q.timing = .now then R 0 q.id q.colour
        else if c.isQuiet then .nothing else R 1 q.id q.colour)) := by
  have hpresent : side.step * ((0 : Nat) : Int) = 0 := Int.mul_zero _
  have hask : ∀ {k : Nat}, c.LitBefore validate k →
      Settles ((alone validate c).chart (only side)) (alone validate c).fresh.depthBound
        (.ask (side.step * k) q.id q.colour) (.ok (R k q.id q.colour)) := fun hlit =>
    (settles_plain h hplaced hside hforward hrecurs hlit hlive q.colour
      (h.plainDepth_lt_plainBound validate _ q.id)).mono (plainBound_le_depthBound validate c)
  have hzero := c.litBefore_zero validate
  by_cases hnow : q.timing = .now
  · rw [if_pos hnow, hnow]
    have hfirst := hask hzero
    rw [hpresent] at hfirst
    exact .onward (c := c) rfl hfirst
  · obtain rfl := htiming.resolve_left hnow
    rw [if_neg hnow]
    have hnext := settles_next h hplaced hnow hzero fun hlit => hask (k := 1) hlit
    rw [hpresent] at hnext
    exact hnext

end History

/-! ## One side of the present -/

namespace Evaluator

/-- The task is about ticks on one side of the present, and leads on to that side only. -/
def Task.Onward (side : Timing) : Task → Prop
  | .ask offset _ _ => ∃ n : Nat, offset = side.step * n
  | .compute offset _ _ => ∃ n : Nat, offset = side.step * n
  | .fold c offset _ _ _ _ => (∃ n : Nat, offset = side.step * n) ∧ c.OneWay side
  | .look offset _ _ timing => (∃ n : Nat, offset = side.step * n) ∧ (timing = .now ∨ timing = side)

/-- The evaluator has not looked across the present. -/
structure OneSided (side : Timing) (e : Evaluator) : Prop where
  wires : e.Throughout (Circuit.OneWay · side)
  across : e.timeline.frame? (-side.step) = none

theorem OneSided.imagining {side : Timing} {e : Evaluator} (h : OneSided side e) (hside : side ≠ .now)
    (n : Nat) {c : Circuit} (hc : c.OneWay side) :
    OneSided side (e.imagining (side.step * (n + 1 : Nat)) c) where
  wires := h.wires.imagining hc _
  across := by
    have hne : -side.step ≠ side.step * ((n + 1 : Nat) : Int) := by
      cases side with
      | now => exact absurd rfl hside
      | past | future =>
        simp only [Timing.step]
        omega
    rw [Evaluator.imagining, Timeline.frame?_imagine, if_neg hne]
    exact h.across

/-- A walk that leads on to one side of the present imagines no tick on the other one. -/
theorem Walk.oneSided {side : Timing} (hside : side ≠ .now) {fuel : Nat} {task : Task}
    {e e' : Evaluator} {answer : Except Fault Peak} (hwalk : Walk fuel task e answer e')
    (honeSided : OneSided side e) (honward : task.Onward side) : OneSided side e' := by
  have hstep : ∀ {offset : Int} {timing : Timing}, timing ≠ .now →
      ((∃ n : Nat, offset = side.step * n) ∧ (timing = .now ∨ timing = side)) →
      ∃ n : Nat, offset + timing.step = side.step * (n + 1 : Nat) := by
    rintro offset timing htiming ⟨⟨n, rfl⟩, hnow | rfl⟩
    · exact absurd hnow htiming
    · exact ⟨n, (step_succ timing n).symm⟩
  induction hwalk with
  | descend _ _ ih =>
    have hbody := ih ⟨honeSided.wires, honeSided.across⟩ honward
    exact ⟨hbody.wires, hbody.across⟩
  | gather hframe _ _ _ ih =>
    exact ih ⟨honeSided.wires, honeSided.across⟩ ⟨honward, honeSided.wires _ _ hframe⟩
  | skip _ _ _ ih => exact ih honeSided honward
  | broken hwire _ _ _ ih => exact ih honeSided ⟨honward.1, honward.2.look hwire⟩
  | settle hwire _ _ _ _ ih => exact ih honeSided ⟨honward.1, honward.2.look hwire⟩
  | proceed hwire _ _ _ _ _ ihlook ihrest =>
    exact ihrest (ihlook honeSided ⟨honward.1, honward.2.look hwire⟩) honward
  | stay _ ih => exact ih honeSided honward.1
  | known htiming _ _ _ ih =>
    obtain ⟨n, hn⟩ := hstep htiming honward
    exact ih honeSided ⟨n + 1, hn⟩
  | imagine htiming _ _ hcurrent hproject _ _ ih =>
    obtain ⟨n, hn⟩ := hstep htiming honward
    rw [hn] at ih
    exact ih (honeSided.imagining hside n ((honeSided.wires _ _ hcurrent).of_project hproject))
      ⟨n + 1, rfl⟩
  | cut | reuse | again | frameless | absent | lost | stored | done | wireless | sourceless | deadEnd
  | adrift | unprojectable | stale => exact ⟨honeSided.wires, honeSided.across⟩

theorem OneSided.next {side : Timing} {e : Evaluator} (h : OneSided side e) (hside : side ≠ .now)
    {q : Query} (htiming : q.timing = .now ∨ q.timing = side) : OneSided side (e.next q) := by
  rcases e.reply_cases q with ⟨hsame, -⟩ | ⟨_, _, -, -, hwalk⟩
  · rw [hsame]
    exact h
  · exact hwalk.oneSided hside h ⟨⟨0, (Int.mul_zero _).symm⟩, htiming⟩

theorem OneSided.asked {side : Timing} {e : Evaluator} (h : OneSided side e) (hside : side ≠ .now)
    {queries : List Query} (htimings : ∀ q ∈ queries, q.timing = .now ∨ q.timing = side) :
    OneSided side (e.asked queries) := by
  induction queries generalizing e with
  | nil => exact h
  | cons q queries ih =>
    exact ih (h.next hside (htimings q List.mem_cons_self))
      fun other hother => htimings other (List.mem_cons_of_mem _ hother)

/-- What has not looked across the present closed nothing on account of what is there. -/
theorem OneSided.straight {side : Timing} {e : Evaluator} (h : OneSided side e) :
    Straight (History.only side) e := by
  intro other htrusted _ frame hframe
  rw [of_decide_eq_true htrusted, h.across] at hframe
  cases hframe

end Evaluator

namespace History

theorem oneSided_fresh {c : Circuit} {side : Timing} (hside : side ≠ .now) (honeWay : c.OneWay side)
    (validate : Bool) : OneSided side (alone validate c).fresh where
  wires := throughout_ofHistory (fun d hd => by rw [List.mem_singleton.mp hd]; exact honeWay) validate
  across := by
    rw [frame?_fresh_eq, if_neg]
    cases side with
    | now => exact absurd rfl hside
    | past | future => simp [alone, Timing.step]

/-! ## Answers -/

/-- The answers of an evaluator without recorded ticks about the present and one side of it are plain: they
are the one solution of the recursion over the ticks to come, whatever was asked before. -/
structure PlainAnswers (validate : Bool) (c : Circuit) (side : Timing) (R : Reading) : Prop where
  ticks : c.after validate 0 = c ∧
    ∀ k, (c.after validate k).project validate = .ok (c.after validate (k + 1))
  recurs : Recurs (c.after validate) R
  unique : ∀ other, Recurs (c.after validate) other → other = R
  reply : ∀ queries q, (∀ p ∈ queries ++ [q], p.timing = .now ∨ p.timing = side) →
    (∃ cell, c.cell q.id = .ok cell) →
    ((alone validate c).fresh.asked queries).reply q =
      .ok (if q.timing = .now then R 0 q.id q.colour
        else if c.isQuiet then .nothing else R 1 q.id q.colour)

end History

namespace Circuit

/-- Queries about the present, or the side from which pulses come, are answered with plain peaks. -/
theorem Linked.reply_asked_forward {c : Circuit} (h : c.Linked) (hplaced : c.Placed) {side : Timing}
    (hside : side ≠ .now) (hforward : c.FeedForward side) {validate : Bool} {R : Reading}
    (hrecurs : Recurs (c.after validate) R) {queries : List Query}
    (hqueries : ∀ p ∈ queries, p.timing = .now ∨ p.timing = side) {q : Query}
    (hq : q.timing = .now ∨ q.timing = side) {cell : Cell} (hcell : c.cell q.id = .ok cell) :
    ((History.alone validate c).fresh.asked queries).reply q =
      .ok (if q.timing = .now then R 0 q.id q.colour
        else if c.isQuiet then .nothing else R 1 q.id q.colour) := by
  have hone := (History.oneSided_fresh hside hforward.oneWay validate).asked hside hqueries
  have hsettles := History.settles_query h hplaced hside hforward hrecurs
    ⟨cell, cell_ok_iff.mp hcell⟩ hq
  have hasked := History.Asked.queries (History.alone validate c) (History.only side) queries
  rw [hasked.reply_eq (hone.next hside hq).straight hsettles]
  show (c.cell q.id >>= fun _ => _) = _
  rw [hcell]
  rfl

/-- On a feed-forward circuit an evaluator does what plain recursion does. -/
theorem Reachable.answers_plain {c : Circuit} (h : Reachable c) (hplaced : c.Placed) {side : Timing}
    (hside : side ≠ .now) (hforward : c.FeedForward side) (validate : Bool) :
    History.PlainAnswers validate c side (c.plainPeak validate) := by
  have hlinked := h.sound.linked
  have hrecurs := hlinked.recurs_plainPeak hforward.acyclic validate
  exact {
    ticks := ⟨rfl, hlinked.project_after validate⟩
    recurs := hrecurs
    unique := fun _ hother => hlinked.recurs_unique hforward.acyclic hother
    reply := fun queries q htimings hlive => by
      obtain ⟨cell, hcell⟩ := hlive
      exact hlinked.reply_asked_forward hplaced hside hforward hrecurs
        (fun p hp => htimings p (List.mem_append_left _ hp))
        (htimings q (List.mem_append_right _ List.mem_cons_self)) hcell }

/-- A lit relay in the lit root feeds a second one over time, and that one feeds a third. -/
def relayed : Circuit :=
  initial.performAll true
    [.createCell .root .relay .origin, .createCell .root .relay .origin,
      .createCell .root .relay .origin, .fireCell .root .red, .fireCell ⟨1⟩ .red,
      .createWire ⟨1⟩ ⟨2⟩ .any .past, .createWire ⟨2⟩ ⟨3⟩ .any .now]

theorem answers_plain_relayed :
    History.PlainAnswers true relayed .future (relayed.plainPeak true) ∧
      ((History.alone true relayed).fresh.asked [⟨⟨3⟩, .red, .future⟩]).reply ⟨⟨3⟩, .red, .now⟩ =
        .ok .raw ∧
      ((History.alone true relayed).fresh.asked [⟨⟨3⟩, .red, .now⟩]).reply ⟨⟨3⟩, .red, .future⟩ =
        .ok .nothing := by
  have hforward : relayed.FeedForward .future :=
    ⟨acyclic_of_number (·.raw) (by decide), oneWay_of_wires (by decide)⟩
  exact ⟨Reachable.answers_plain (.performAll .initial true _) (by decide) (by decide) hforward true,
    rfl, rfl⟩

end Circuit

end PulseCircuit
