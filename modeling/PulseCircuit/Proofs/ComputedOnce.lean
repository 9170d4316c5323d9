import PulseCircuit.Proofs.FeedForward
import PulseCircuit.Proofs.Journal

/-!
# Nothing is computed twice

On a feed-forward circuit a walk goes on to cells that are less deep only (`plainDepth`), and all that is pending
is deeper. So no pending key is asked for again, no peak is tainted, and whatever is computed stays remembered. An
evaluator therefore computes each key once, however many ways lead to a cell, and it has no more keys to compute
than there are cells and colours in the ticks before which pulses are left.

* `Orderly`, `Walk.orderly`: what each step of a walk keeps;
* `Journal.booked`, `Journal.nodup`: what was computed is remembered, and was not computed before;
* `Reachable.computed_once`: it is so after any queries.
-/

namespace PulseCircuit

open Circuit Evaluator

namespace Circuit

variable {c : Circuit} {validate : Bool}

/-- With every tick before which pulses are left there is a lit cell less on each way up. -/
theorem Linked.litDepth_after_add_le (h : c.Linked) {k : Nat} (hlit : c.LitBefore validate k) :
    (c.after validate k).litDepth + k ≤ c.litDepth := by
  induction k with
  | zero => exact Nat.le_refl _
  | succ k ih =>
    have hbefore := ih (hlit.mono (Nat.le_succ k))
    have hdarker := h.litDepth_after_lt (hlit k (Nat.lt_succ_self k))
    omega

/-- The keys of all cells in the present and in as many ticks on one side of it as there may be pulses. -/
def keysAhead (c : Circuit) (side : Timing) : List MemoKey :=
  (List.range (c.litDepth + 1)).flatMap fun k => Colour.all.flatMap (c.keysIn (side.step * (k : Nat)))

theorem length_keysAhead (c : Circuit) (side : Timing) :
    (c.keysAhead side).length = 3 * c.cells.length * (c.litDepth + 1) := by
  have hcolours : ∀ tick, (Colour.all.flatMap (c.keysIn tick)).length = 3 * c.cells.length := by
    intro tick
    simp only [Colour.all, List.flatMap_cons, List.flatMap_nil, List.length_append, List.length_nil, keysIn,
      List.length_map]
    omega
  rw [keysAhead, List.length_flatMap]
  simp only [List.length_flatMap] at hcolours ⊢
  simp only [hcolours, List.map_const', List.sum_replicate_nat, List.length_range]
  exact Nat.mul_comm ..

end Circuit

namespace Evaluator

variable {validate : Bool} {c : Circuit} {side : Timing} {n : Nat}

/-- The cell is live, and pulses are left in all ticks between the present and the tick. -/
structure Ahead (validate : Bool) (c : Circuit) (side : Timing) (k : Nat) (offset : Int) (id : CellId) : Prop where
  offset_eq : offset = side.step * k
  lit : c.LitBefore validate k
  live : ∃ cell, c.cell? id = some cell

theorem Ahead.mem_keysAhead (h : c.Linked) {key : MemoKey} {k : Nat}
    (hahead : Ahead validate c side k key.offset key.cell) : key ∈ c.keysAhead side := by
  obtain ⟨offset, id, colour⟩ := key
  obtain ⟨rfl, hlit, cell, hcell⟩ := hahead
  have hle := h.litDepth_after_add_le hlit
  have hkey := mem_keysIn h.keyed (side.step * k) colour (cell_ok_iff.mpr hcell)
  exact List.mem_flatMap.mpr ⟨k, List.mem_range.mpr (by omega),
    List.mem_flatMap.mpr ⟨colour, Colour.mem_all colour, hkey⟩⟩

/-- The task is about cells that are less deep than `n`, and leads on to the given side only. -/
def Task.Below (validate : Bool) (c : Circuit) (side : Timing) (n : Nat) : Task → Prop
  | .ask offset id _ => ∃ k, Ahead validate c side k offset id ∧ c.plainDepth validate k id < n
  | .compute offset id _ => ∃ k, Ahead validate c side k offset id ∧ c.plainDepth validate k id ≤ n
  | .fold d offset target _ inputs _ => ∃ k id, Ahead validate c side k offset id ∧
    c.plainDepth validate k id ≤ n ∧ d = c.after validate k ∧ d.cell? id = some target ∧
    ∀ input ∈ inputs, input ∈ target.inputs
  | .look offset id _ timing => ∃ k, Ahead validate c side k offset id ∧
    (timing = .now ∧ c.plainDepth validate k id < n ∨
      timing = side ∧ (c.LitBefore validate (k + 1) → c.plainDepth validate (k + 1) id < n))

/-- The ticks of the evaluator are those to come as long as there are pulses, nothing was asked for again, and
what is pending is at least as deep as `n`. -/
structure Orderly (validate : Bool) (c : Circuit) (side : Timing) (n : Nat) (e : Evaluator) : Prop where
  validate_eq : e.validate = validate
  shown : ∀ (k : Nat) frame, e.timeline.frame? (side.step * k) = some frame →
    frame.circuit = c.after validate k ∧ c.LitBefore validate k
  untainted : e.reentered = none
  deeper : ∀ (k : Nat) id colour depth, e.pendingDepth? ⟨side.step * k, id, colour⟩ = some depth →
    n ≤ c.plainDepth validate k id

/-! ## What a walk keeps -/

theorem step_inj (hside : side ≠ .now) {j k : Nat} (h : side.step * (j : Int) = side.step * k) : j = k := by
  rw [← natAbs_step hside j, h, natAbs_step hside]

namespace Task.Below

variable {d : Circuit} {offset : Int} {target source : Cell} {colour : Colour} {input : WireId}
  {inputs : List WireId} {peak : Peak} {wire : Wire} {id : CellId} {timing : Timing}

theorem tail (h : (Task.fold d offset target colour (input :: inputs) peak).Below validate c side n) (next : Peak) :
    (Task.fold d offset target colour inputs next).Below validate c side n := by
  obtain ⟨k, id, hahead, hdepth, hcircuit, hcell, hinputs⟩ := h
  exact ⟨k, id, hahead, hdepth, hcircuit, hcell,
    fun other hother => hinputs other (List.mem_cons_of_mem _ hother)⟩

/-- The sources of a cell are less deep than the cell. -/
theorem look (h : (Task.fold d offset target colour (input :: inputs) peak).Below validate c side n)
    (hlinked : c.Linked) (hforward : c.FeedForward side) (hwire : d.wire input = .ok wire)
    (hadmits : wire.colour.admits colour = true) (hsource : d.cell wire.source = .ok source) :
    (Task.look offset source.id colour wire.timing.flip).Below validate c side n := by
  obtain ⟨k, id, ⟨rfl, hlit, -⟩, hdepth, rfl, hcell, hinputs⟩ := h
  have hk := hlinked.after validate k
  rw [wire_ok_iff] at hwire
  rw [cell_ok_iff] at hsource
  have hhop : (⟨source, target, wire⟩ : Hop) ∈ (c.after validate k).hops target colour := by
    refine List.mem_filterMap.mpr ⟨input, hinputs input List.mem_cons_self, ?_⟩
    rw [hop?_eq hwire hsource, if_pos hadmits]
  have hlive : ∃ cell, c.cell? source.id = some cell := by
    rw [← hlinked.live_after_iff validate k, id_of_cell? hk.keyed hsource]
    exact ⟨source, hsource⟩
  refine ⟨k, ⟨rfl, hlit, hlive⟩, ?_⟩
  rcases hlinked.oneWay_after hforward.oneWay validate k _ _ (wire_ok_iff.mpr hwire) with hnow | htimed
  · have hlt := hlinked.plainDepth_now hforward.acyclic hcell hhop hnow
    rw [hnow]
    exact Or.inl ⟨rfl, Nat.lt_of_lt_of_le hlt hdepth⟩
  · rw [htimed, Timing.flip_flip]
    refine Or.inr ⟨rfl, fun hnext => ?_⟩
    exact Nat.lt_of_lt_of_le (hlinked.plainDepth_next (hnext k (Nat.lt_succ_self k)) source.id id) hdepth

theorem stay (hside : side ≠ .now) (h : (Task.look offset id colour .now).Below validate c side n) :
    (Task.ask offset id colour).Below validate c side n := by
  obtain ⟨k, hahead, ⟨-, hdepth⟩ | ⟨hnow, -⟩⟩ := h
  · exact ⟨k, hahead, hdepth⟩
  · exact absurd hnow.symm hside

/-- A look to the side goes on to the next tick, if pulses are left before that. -/
theorem onward (h : (Task.look offset id colour timing).Below validate c side n) (htiming : timing ≠ .now) :
    ∃ k : Nat, offset = side.step * k ∧ offset + timing.step = side.step * (k + 1 : Nat) ∧
      (c.LitBefore validate (k + 1) →
        (Task.ask (offset + timing.step) id colour).Below validate c side n) := by
  obtain ⟨k, ⟨rfl, -, hlive⟩, ⟨hnow, -⟩ | ⟨rfl, hdepth⟩⟩ := h
  · exact absurd hnow htiming
  · exact ⟨k, rfl, (step_succ timing k).symm, fun hlit =>
      ⟨k + 1, ⟨(step_succ timing k).symm, hlit, hlive⟩, hdepth hlit⟩⟩

end Task.Below

namespace Orderly

variable {e e' : Evaluator} {offset : Int} {id : CellId} {colour : Colour} {frame : Frame} {timing : Timing}

theorem fresh (hside : side ≠ .now) (validate : Bool) (c : Circuit) (n : Nat) :
    Orderly validate c side n (ofHistory validate c [] []) where
  validate_eq := rfl
  shown := by
    intro k frame hframe
    have hle := (History.alone validate c).le_of_frame?_fresh hside hframe
    rw [History.given_alone, List.length_nil, Nat.le_zero] at hle
    subst hle
    have hpresent : side.step * ((0 : Nat) : Int) = 0 := Int.mul_zero _
    have hframe' := (History.alone validate c).present_frame
    rw [hpresent] at hframe
    cases hframe'.symm.trans hframe
    exact ⟨rfl, c.litBefore_zero validate⟩
  untainted := rfl
  deeper := by
    intro k id colour depth hpending
    cases hpending

theorem counting (h : Orderly validate c side n e) : Orderly validate c side n e.counting :=
  ⟨h.validate_eq, h.shown, h.untainted, h.deeper⟩

/-- A key that is asked for is not pending. -/
theorem not_pending (h : Orderly validate c side n e)
    (hbelow : (Task.ask offset id colour).Below validate c side n) {depth : Nat} :
    e.memo.get? ⟨offset, id, colour⟩ ≠ some (.pending depth) := by
  intro hpending
  obtain ⟨k, ⟨rfl, -, -⟩, hdepth⟩ := hbelow
  have hle := h.deeper k id colour depth (by rw [pendingDepth?, hpending])
  omega

/-- The key of a computation is no deeper than what was pending before. -/
theorem descend (h : Orderly validate c side n e) (hside : side ≠ .now)
    (hbelow : (Task.ask offset id colour).Below validate c side n) :
    ∃ m, Orderly validate c side m (e.enter ⟨offset, id, colour⟩) ∧
      (Task.compute offset id colour).Below validate c side m := by
  obtain ⟨k, hahead, hdepth⟩ := hbelow
  refine ⟨c.plainDepth validate k id, ⟨h.validate_eq, h.shown, rfl, ?_⟩, k, hahead, Nat.le_refl _⟩
  intro j other colour' depth hpending
  rw [pendingDepth?_enter] at hpending
  split at hpending
  next hkey =>
    obtain ⟨hoffset, rfl, -⟩ := MemoKey.mk.inj hkey
    rw [step_inj hside (hoffset.trans hahead.offset_eq)]
  next => exact Nat.le_trans (Nat.le_of_lt hdepth) (h.deeper j other colour' depth hpending)

theorem gather (h : Orderly validate c side n e)
    (hbelow : (Task.compute offset id colour).Below validate c side n)
    (hframe : e.timeline.frame? offset = some frame) {target : Cell} (hcell : frame.circuit.cell id = .ok target)
    (peak : Peak) : (Task.fold frame.circuit offset target colour target.inputs peak).Below validate c side n := by
  obtain ⟨k, hahead, hdepth⟩ := hbelow
  obtain ⟨hcircuit, -⟩ := h.shown k _ (hahead.offset_eq ▸ hframe)
  exact ⟨k, id, hahead, hdepth, hcircuit, cell_ok_iff.mp hcell, fun _ hinput => hinput⟩

theorem known (h : Orderly validate c side n e)
    (hbelow : (Task.look offset id colour timing).Below validate c side n) (htiming : timing ≠ .now)
    (hframe : e.timeline.frame? (offset + timing.step) = some frame) :
    (Task.ask (offset + timing.step) id colour).Below validate c side n := by
  obtain ⟨k, -, hnext, hask⟩ := hbelow.onward htiming
  exact hask (h.shown (k + 1) _ (hnext ▸ hframe)).2

/-- An imagined tick shows what comes next, and there was a pulse in the one before, else it would be a dead
end. -/
theorem imagine (h : Orderly validate c side n e) (hlinked : c.Linked) (hplaced : c.Placed) (hside : side ≠ .now)
    (hbelow : (Task.look offset id colour timing).Below validate c side n) (htiming : timing ≠ .now)
    (hcurrent : e.timeline.frame? offset = some frame) {projected : Circuit}
    (hproject : frame.circuit.project e.validate = .ok projected)
    (hfresh : e.isStale offset timing.step frame.circuit projected = false) :
    Orderly validate c side n (e.imagining (offset + timing.step) projected) ∧
      (Task.ask (offset + timing.step) id colour).Below validate c side n := by
  obtain ⟨k, rfl, hnext, hask⟩ := hbelow.onward htiming
  obtain ⟨hcircuit, hlit⟩ := h.shown k _ hcurrent
  rw [hcircuit] at hfresh hproject
  rw [h.validate_eq, hlinked.project_after] at hproject
  obtain rfl := Except.ok.inj hproject
  have hlit' : c.LitBefore validate (k + 1) := by
    refine hlit.succ (Bool.eq_false_iff.mpr fun hquiet => ?_)
    rw [isStale, hlinked.sameState_after_of_quiet hplaced hquiet, Bool.true_or] at hfresh
    cases hfresh
  refine ⟨⟨h.validate_eq, fun j other hother => ?_, h.untainted, h.deeper⟩, hask hlit'⟩
  rw [Evaluator.imagining, Timeline.frame?_imagine, hnext] at hother
  split at hother
  next heq =>
    cases hother
    rw [step_inj hside heq]
    exact ⟨rfl, hlit'⟩
  next => exact h.shown j other hother

end Orderly

section Walking

variable (h : c.Linked) (hplaced : c.Placed) (hside : side ≠ .now) (hforward : c.FeedForward side)

include h hplaced hside hforward

/-- A walk leaves an orderly evaluator behind, however it ends. -/
theorem Walk.orderly {fuel : Nat} {task : Task} {e e' : Evaluator} {answer : Except Fault Peak}
    (hwalk : Walk fuel task e answer e') (horderly : Orderly validate c side n e)
    (hbelow : task.Below validate c side n) : Orderly validate c side n e' := by
  induction hwalk generalizing n with
  | again hpending => exact absurd hpending (horderly.not_pending hbelow)
  | descend hnew hbody ih =>
    obtain ⟨m, hentered, hcompute⟩ := horderly.descend hside hbelow
    have hend := ih hentered hcompute
    refine ⟨hend.validate_eq, hend.shown, ?_, fun j id colour depth hpending => ?_⟩
    · rw [reentered_leave, horderly.untainted, hend.untainted]
      rfl
    · rw [(Walk.descend hnew hbody).restored.pending] at hpending
      exact horderly.deeper j id colour depth hpending
  | gather hframe hcell _ _ ih => exact ih horderly.counting (horderly.gather hbelow hframe hcell _)
  | skip _ _ _ ih => exact ih horderly (hbelow.tail _)
  | broken hwire hadmits hsource _ ih => exact ih horderly (hbelow.look h hforward hwire hadmits hsource)
  | settle hwire hadmits hsource _ _ ih => exact ih horderly (hbelow.look h hforward hwire hadmits hsource)
  | proceed hwire hadmits hsource _ _ _ ihlook ihrest =>
    exact ihrest (ihlook horderly (hbelow.look h hforward hwire hadmits hsource)) (hbelow.tail _)
  | stay _ ih => exact ih horderly (hbelow.stay hside)
  | known htiming _ hframe _ ih => exact ih horderly (horderly.known hbelow htiming hframe)
  | imagine htiming _ _ hcurrent hproject hfresh _ ih =>
    obtain ⟨horderly', hask⟩ := horderly.imagine h hplaced hside hbelow htiming hcurrent hproject hfresh
    exact ih horderly' hask
  | stored => exact horderly.counting
  | cut | reuse | frameless | absent | lost | done | wireless | sourceless | deadEnd | adrift | unprojectable
  | stale => exact ⟨horderly.validate_eq, horderly.shown, horderly.untainted, horderly.deeper⟩

/-! ## What a journal lists -/

/-- What was computed for an answer is remembered, but for the peak that is being computed. -/
theorem Journal.booked {fuel : Nat} {task : Task} {e e' : Evaluator} {keys : List MemoKey}
    {answer : Except Fault Peak} (hjournal : Journal fuel task e keys answer e') {peak : Peak}
    (hanswer : answer = .ok peak) (horderly : Orderly validate c side n e)
    (hbelow : task.Below validate c side n) {key : MemoKey} (hkey : key ∈ keys) :
    (∃ k, Ahead validate c side k key.offset key.cell) ∧
      (task.own? = some key ∨ ∃ found, e'.memo.get? key = some (.done found)) := by
  induction hjournal generalizing n peak with
  | idle => cases hkey
  | descend _ hbody ih =>
    obtain ⟨m, hentered, hcompute⟩ := horderly.descend hside hbelow
    obtain ⟨hahead, hdone⟩ := ih hanswer hentered hcompute hkey
    refine ⟨hahead, Or.inr ?_⟩
    -- nothing is tainted, so the peak is remembered
    rw [get?_leave, (hbody.walk.orderly h hplaced hside hforward hentered hcompute).untainted, hanswer]
    split
    next => exact ⟨peak, rfl⟩
    next hother => exact hdone.resolve_left fun hown => hother (Option.some.inj hown).symm
  | stored =>
    obtain ⟨k, hahead, -⟩ := hbelow
    cases List.mem_singleton.mp hkey
    exact ⟨⟨k, hahead⟩, Or.inl rfl⟩
  | gather hframe hcell _ _ ih =>
    rcases List.mem_cons.mp hkey with rfl | hkey
    · obtain ⟨k, hahead, -⟩ := hbelow
      exact ⟨⟨k, hahead⟩, Or.inl rfl⟩
    · obtain ⟨hahead, hdone⟩ := ih hanswer horderly.counting (horderly.gather hbelow hframe hcell _) hkey
      exact ⟨hahead, Or.inr (hdone.resolve_left (Option.some_ne_none _).symm)⟩
  | skip _ _ _ ih => exact ih hanswer horderly (hbelow.tail _) hkey
  | broken => cases hanswer
  | settle hwire hadmits hsource _ _ ih =>
    exact ih rfl horderly (hbelow.look h hforward hwire hadmits hsource) hkey
  | proceed hwire hadmits hsource hlook _ hrest ihlook ihrest =>
    have hfirst := hbelow.look h hforward hwire hadmits hsource
    rcases List.mem_append.mp hkey with hkey | hkey
    · obtain ⟨hahead, hdone⟩ := ihlook rfl horderly hfirst hkey
      obtain ⟨found, hfound⟩ := hdone.resolve_left (Option.some_ne_none _).symm
      exact ⟨hahead, Or.inr ⟨found, hrest.walk.kept hfound⟩⟩
    · exact ihrest hanswer (hlook.walk.orderly h hplaced hside hforward horderly hfirst) (hbelow.tail _) hkey
  | stay _ ih => exact ih hanswer horderly (hbelow.stay hside) hkey
  | known htiming _ hframe _ ih => exact ih hanswer horderly (horderly.known hbelow htiming hframe) hkey
  | imagine htiming _ _ hcurrent hproject hfresh _ ih =>
    obtain ⟨horderly', hask⟩ := horderly.imagine h hplaced hside hbelow htiming hcurrent hproject hfresh
    exact ih hanswer horderly' hask hkey

/-- For an answer no key is computed twice, nor the one that was being computed before. -/
theorem Journal.nodup {fuel : Nat} {task : Task} {e e' : Evaluator} {keys : List MemoKey}
    {answer : Except Fault Peak} (hjournal : Journal fuel task e keys answer e') {peak : Peak}
    (hanswer : answer = .ok peak) (horderly : Orderly validate c side n e)
    (hbelow : task.Below validate c side n) (hentered : task.Entered e) : keys.Nodup := by
  induction hjournal generalizing n peak with
  | idle => exact .nil
  | descend _ _ ih =>
    obtain ⟨m, horderly', hcompute⟩ := horderly.descend hside hbelow
    refine ih hanswer horderly' hcompute fun key hkey => ?_
    rw [get?_enter, if_pos (Option.some.inj hkey).symm]
    simp
  | stored => exact List.nodup_singleton _
  | gather hframe hcell _ hfold ih =>
    refine List.nodup_cons.mpr ⟨fun hmem => ?_, ?_⟩
    · exact hentered _ rfl ((hfold.new hmem).resolve_left (Option.some_ne_none _).symm)
    · exact ih hanswer horderly.counting (horderly.gather hbelow hframe hcell _) (.of_none rfl)
  | skip _ _ _ ih => exact ih hanswer horderly (hbelow.tail _) (.of_none rfl)
  | broken => cases hanswer
  | settle hwire hadmits hsource _ _ ih =>
    exact ih rfl horderly (hbelow.look h hforward hwire hadmits hsource) (.of_none rfl)
  | proceed hwire hadmits hsource hlook _ hrest ihlook ihrest =>
    have hfirst := hbelow.look h hforward hwire hadmits hsource
    have horderly' := hlook.walk.orderly h hplaced hside hforward horderly hfirst
    have hkeys := ihlook rfl horderly hfirst (.of_none rfl)
    have hothers := ihrest hanswer horderly' (hbelow.tail _) (.of_none rfl)
    refine hkeys.append hothers fun key hkey hlater => ?_
    -- what the look computed is remembered when the other inputs are folded
    obtain ⟨-, hdone⟩ := hlook.booked h hplaced hside hforward rfl horderly hfirst hkey
    obtain ⟨found, hfound⟩ := hdone.resolve_left (Option.some_ne_none _).symm
    cases hfound.symm.trans ((hrest.new hlater).resolve_left (Option.some_ne_none _).symm)
  | stay _ ih => exact ih hanswer horderly (hbelow.stay hside) (.of_none rfl)
  | known htiming _ hframe _ ih => exact ih hanswer horderly (horderly.known hbelow htiming hframe) (.of_none rfl)
  | imagine htiming _ _ hcurrent hproject hfresh _ ih =>
    obtain ⟨horderly', hask⟩ := horderly.imagine h hplaced hside hbelow htiming hcurrent hproject hfresh
    exact ih hanswer horderly' hask (.of_none rfl)

end Walking

/-! ## After any queries -/

/-- What is known of the keys that were computed for some queries, and of the evaluator after them. -/
structure Accounted (validate : Bool) (c : Circuit) (side : Timing) (keys : List MemoKey) (e : Evaluator) :
    Prop where
  orderly : Orderly validate c side c.plainBound e
  nodup : keys.Nodup
  ahead : ∀ key ∈ keys, ∃ k, Ahead validate c side k key.offset key.cell
  done : ∀ key ∈ keys, ∃ found, e.memo.get? key = some (.done found)

theorem Accounted.fresh (hside : side ≠ .now) (validate : Bool) (c : Circuit) :
    Accounted validate c side [] (ofHistory validate c [] []) where
  orderly := .fresh hside validate c _
  nodup := .nil
  ahead _ hkey := absurd hkey List.not_mem_nil
  done _ hkey := absurd hkey List.not_mem_nil

/-- No cell of the present is deeper than the bound. -/
theorem Task.below_plainBound (h : c.Linked) {id : CellId} (hlive : ∃ cell, c.cell? id = some cell)
    {timing : Timing} (htiming : timing = .now ∨ timing = side) (colour : Colour) :
    (Task.look 0 id colour timing).Below validate c side c.plainBound := by
  refine ⟨0, ⟨(Int.mul_zero _).symm, c.litBefore_zero validate, hlive⟩, ?_⟩
  rcases htiming with hnow | hother
  · exact Or.inl ⟨hnow, h.plainDepth_lt_plainBound validate 0 id⟩
  · exact Or.inr ⟨hother, fun _ => h.plainDepth_lt_plainBound validate 1 id⟩

section Asking

variable (h : c.Linked) (hplaced : c.Placed) (hside : side ≠ .now) (hforward : c.FeedForward side)

include h hplaced hside hforward

/-- What a look computes was not computed before, and is remembered too. -/
theorem Accounted.look {keys others : List MemoKey} {e e' : Evaluator} (haccounted : Accounted validate c side keys e)
    {fuel : Nat} {id : CellId} {colour : Colour} {timing : Timing} {peak : Peak}
    (hjournal : Journal fuel (.look 0 id colour timing) e others (.ok peak) e')
    (hlive : ∃ cell, c.cell? id = some cell) (htiming : timing = .now ∨ timing = side) :
    Accounted validate c side (keys ++ others) e' := by
  have horderly := haccounted.orderly
  have hbelow : (Task.look 0 id colour timing).Below validate c side c.plainBound :=
    Task.below_plainBound h hlive htiming colour
  have hbooked : ∀ key ∈ others, (∃ k, Ahead validate c side k key.offset key.cell) ∧
      ∃ found, e'.memo.get? key = some (.done found) := by
    intro key hkey
    obtain ⟨hahead, hdone⟩ := hjournal.booked h hplaced hside hforward rfl horderly hbelow hkey
    exact ⟨hahead, hdone.resolve_left (Option.some_ne_none _).symm⟩
  refine ⟨hjournal.walk.orderly h hplaced hside hforward horderly hbelow, ?_, fun key hkey => ?_,
    fun key hkey => ?_⟩
  · have hothers := hjournal.nodup h hplaced hside hforward rfl horderly hbelow (.of_none rfl)
    refine haccounted.nodup.append hothers fun key hkey hlater => ?_
    obtain ⟨found, hfound⟩ := haccounted.done key hkey
    cases hfound.symm.trans ((hjournal.new hlater).resolve_left (Option.some_ne_none _).symm)
  · rcases List.mem_append.mp hkey with hkey | hkey
    · exact haccounted.ahead key hkey
    · exact (hbooked key hkey).1
  · rcases List.mem_append.mp hkey with hkey | hkey
    · obtain ⟨found, hfound⟩ := haccounted.done key hkey
      exact ⟨found, hjournal.walk.kept hfound⟩
    · exact (hbooked key hkey).2

/-- So it is with any queries that are answered, and the others compute nothing. -/
theorem Journals.accounted {R : Reading} (hplain : History.PlainAnswers validate c side R) {queries : List Query}
    {keys : List MemoKey} (hjournals : (ofHistory validate c [] []).Journals queries keys)
    (htimings : ∀ q ∈ queries, q.timing = .now ∨ q.timing = side) :
    Accounted validate c side keys ((ofHistory validate c [] []).asked queries) := by
  induction hjournals with
  | nil => exact .fresh hside validate c
  | @snoc queries q keys others _ hquery ih =>
    have haccounted := ih fun p hp => htimings p (List.mem_append_left _ hp)
    have htiming := htimings q (List.mem_append_right _ List.mem_cons_self)
    rw [asked_concat]
    cases hquery with
    | idle hsame =>
      rw [hsame, List.append_nil]
      exact haccounted
    | walk hjournal =>
      rcases reply_cases _ q with ⟨hsame, -⟩ | ⟨present, cell, hframe, hcell, -⟩
      · -- nothing was counted, so nothing is listed
        have hcount := hjournal.computed
        rw [hsame, Nat.left_eq_add, List.length_eq_zero_iff] at hcount
        rw [hsame, hcount, List.append_nil]
        exact haccounted
      · have hpresent : present.circuit = c := (haccounted.orderly.shown 0 present (by simpa using hframe)).1
        rw [hpresent] at hcell
        have hreply := hplain.reply queries q htimings ⟨cell, hcell⟩
        have hsame : (History.alone validate c).fresh = ofHistory validate c [] [] := rfl
        rw [hsame] at hreply
        rw [hreply] at hjournal
        exact haccounted.look h hplaced hside hforward hjournal ⟨cell, cell_ok_iff.mp hcell⟩ htiming

end Asking

end Evaluator

/-- On a feed-forward circuit an evaluator computes each key at most once, whatever it is asked about the present
and the side from which pulses come. So it computes at most three peaks for each cell and tick, and there is one
tick more than there are lit cells above each other. -/
theorem Circuit.Reachable.computed_once {c : Circuit} (h : c.Reachable) (hplaced : c.Placed) {side : Timing}
    (hside : side ≠ .now) (hforward : c.FeedForward side) (validate : Bool) (queries : List Query)
    (htimings : ∀ q ∈ queries, q.timing = .now ∨ q.timing = side) :
    (∃ keys, (ofHistory validate c [] []).Journals queries keys) ∧
      (∀ keys, (ofHistory validate c [] []).Journals queries keys →
        keys.Nodup ∧ ((ofHistory validate c [] []).asked queries).stats.computed = keys.length) ∧
      ((ofHistory validate c [] []).asked queries).stats.computed ≤ 3 * c.cells.length * (c.litDepth + 1) := by
  have hlinked := h.sound.linked
  have hplain := h.answers_plain hplaced hside hforward validate
  have hcount : ∀ keys, (ofHistory validate c [] []).Journals queries keys →
      ((ofHistory validate c [] []).asked queries).stats.computed = keys.length := by
    intro keys hkeys
    rw [hkeys.computed]
    exact Nat.zero_add _
  have haccounted := fun keys (hkeys : (ofHistory validate c [] []).Journals queries keys) =>
    hkeys.accounted hlinked hplaced hside hforward hplain htimings
  obtain ⟨keys, hkeys⟩ := exists_journals (ofHistory validate c [] []) queries
  refine ⟨⟨keys, hkeys⟩, fun keys hkeys => ⟨(haccounted keys hkeys).nodup, hcount keys hkeys⟩, ?_⟩
  have hsubset : keys ⊆ c.keysAhead side := by
    intro key hkey
    obtain ⟨k, hahead⟩ := (haccounted keys hkeys).ahead key hkey
    exact hahead.mem_keysAhead hlinked
  calc ((ofHistory validate c [] []).asked queries).stats.computed
    _ = keys.length := hcount keys hkeys
    _ ≤ (c.keysAhead side).length := (List.subperm_of_subset (haccounted keys hkeys).nodup hsubset).length_le
    _ = 3 * c.cells.length * (c.litDepth + 1) := c.length_keysAhead side

/-- A lit relay in the lit root, two layers of two relays that are fully joined, and a relay that the second layer
leads to, over time and within the tick. -/
def layered : Circuit :=
  Circuit.initial.performAll true
    [.createCell .root .relay .origin, .createCell .root .relay .origin, .createCell .root .relay .origin,
      .createCell .root .relay .origin, .createCell .root .relay .origin, .createCell .root .relay .origin,
      .createWire ⟨1⟩ ⟨2⟩ .any .now, .createWire ⟨1⟩ ⟨3⟩ .any .past, .createWire ⟨2⟩ ⟨4⟩ .any .now,
      .createWire ⟨3⟩ ⟨4⟩ .any .now, .createWire ⟨2⟩ ⟨5⟩ .any .past, .createWire ⟨3⟩ ⟨5⟩ .any .now,
      .createWire ⟨4⟩ ⟨6⟩ .any .past, .createWire ⟨5⟩ ⟨6⟩ .any .now, .fireCell .root .red, .fireCell ⟨1⟩ .red]

/-- There are 21 peaks to compute for these queries, of the 63 there may be. -/
theorem computed_once_layered :
    (∃ keys, keys.Nodup ∧ keys.length = 21 ∧ (ofHistory true layered [] []).Journals
        [⟨⟨6⟩, .red, .now⟩, ⟨⟨6⟩, .red, .future⟩, ⟨⟨9⟩, .red, .now⟩, ⟨⟨6⟩, .blue, .now⟩] keys) ∧
      3 * layered.cells.length * (layered.litDepth + 1) = 63 := by
  have hreachable : layered.Reachable := .performAll .initial true _
  have hforward : layered.FeedForward .future :=
    ⟨acyclic_of_number (·.raw) (by decide), oneWay_of_wires (by decide)⟩
  obtain ⟨⟨keys, hkeys⟩, honce, -⟩ := hreachable.computed_once (by decide) (by decide) hforward true
    [⟨⟨6⟩, .red, .now⟩, ⟨⟨6⟩, .red, .future⟩, ⟨⟨9⟩, .red, .now⟩, ⟨⟨6⟩, .blue, .now⟩] (by decide)
  obtain ⟨hnodup, hcount⟩ := honce keys hkeys
  exact ⟨⟨keys, hnodup, hcount.symm.trans (by decide +kernel), hkeys⟩, by decide⟩

end PulseCircuit
