import PulseCircuit.Proofs.BeatEffect
import PulseCircuit.Proofs.Upstream

/-!
# Looking back at a beat

A machine remembers the circuit as a beat has changed it: tags are cleared and operations carried out, and
only then it moves on. A question about the past looks at that circuit. It is answered as in the beat where
the beat left everything alone that leads to the cell. A slot that was filled takes no creation pulse any more,
and a cell that was emptied lets pulses pass.

* `Spared`: what a beat leaves alone;
* `Walk.passes_emptied`: a pulse that came to rest where it emptied a cell passes this cell afterwards;
* `SeenAs`: the peaks of a beat and what is answered about the past after it;
* `Reachable.looks_back`: it is so after each beat of a machine, as long as no wire leaves the present.
-/

namespace PulseCircuit

open Circuit Evaluator Running

/-! ## Emptied cells -/

namespace Peak

/-- The pulse goes on, and nothing more is gathered. -/
def Passes (peak : Peak) : Prop := peak.isSuccess = true ∧ peak.isHalted = false ∧ peak.isFinal = true

/-- What is stored is not at rest. -/
theorem isHalted_ofPulse? (held : Option Pulse) (operations : List Operation) :
    (ofPulse? held operations).isHalted = false := by
  cases held with
  | none => rfl
  | some pulse => rfl

theorem Passes.not_rests {peak : Peak} (h : peak.Passes) :
    ¬ (peak.isFinal = true → peak.isHalted = true) := by
  intro hrests
  have hhalted := hrests h.2.2
  rw [h.2.1] at hhalted
  cases hhalted

variable {peak next : Peak} {source old new : Cell} {wire : Wire}

/-- A creation pulse passes a cell that is neither a slot nor tagged. -/
theorem passes_creation (hstart : peak = .nothing ∨ peak = .raw) (hkind : old.kind ≠ .slot)
    (htag : old.hasTag .justCreated = false) (template : Option Template) (operations : List Operation) :
    (Folding.creation peak template operations old).Passes := by
  rw [Folding.creation, Shaped.not_claims hstart, htag, if_neg (by simp), if_neg hkind]
  exact ⟨rfl, rfl, rfl⟩

/-- A destruction pulse passes a slot. -/
theorem passes_destruction (hstart : peak = .nothing ∨ peak = .raw) (hkind : new.kind = .slot)
    (operations : List Operation) : (Folding.destruction peak operations new).Passes := by
  rw [Folding.destruction, Shaped.not_claims hstart, hkind]
  exact ⟨rfl, rfl, rfl⟩

/-- Where a destroyable cell has become a slot, what came to rest there passes. What came over the wires before
is the same, but for a ping, which may pass too. -/
theorem fold_emptied (hstart : peak = .nothing ∨ peak = .raw) (hold : old.kind.isDestroyable = true)
    (htag : old.hasTag .justCreated = false) (hnew : new.kind = .slot)
    (hrests : (peak.fold next ⟨source, old, wire⟩).isFinal = true →
      (peak.fold next ⟨source, old, wire⟩).isHalted = true) :
    (peak.fold next ⟨source, new, wire⟩ = peak.fold next ⟨source, old, wire⟩ ∧
        (peak.fold next ⟨source, old, wire⟩).isHalted = false) ∨
      (peak.fold next ⟨source, new, wire⟩).Passes := by
  have hslot : old.kind ≠ .slot := by
    intro hkind
    rw [hkind] at hold
    cases hold
  have hopen : peak.isHalted = false := by
    rcases hstart with rfl | rfl
    · rfl
    · rfl
  rcases next with operations | ⟨pulse, operations, halted⟩
  · exact Or.inl ⟨rfl, hopen⟩
  cases halted with
  | true =>
    rw [Peak.fold_halted, Peak.fold_halted]
    exact Or.inl ⟨rfl, hopen⟩
  | false =>
  cases pulse with
  | raw =>
    cases hkind : source.kind with
    | creation =>
      have hfold : peak.fold (.success .raw operations false) ⟨source, old, wire⟩ =
          Folding.creation peak none operations old := by
        show Folding.raw peak operations _ = _
        rw [Folding.raw, hkind]
      rw [hfold] at hrests
      exact absurd hrests (passes_creation hstart hslot htag _ _).not_rests
    | destruction =>
      have hfold : peak.fold (.success .raw operations false) ⟨source, new, wire⟩ =
          Folding.destruction peak operations new := by
        show Folding.raw peak operations _ = _
        rw [Folding.raw, hkind]
      rw [hfold]
      exact Or.inr (passes_destruction hstart hnew operations)
    | slot | relay | recording | stopper =>
      have hfold : ∀ target, peak.fold (.success .raw operations false) ⟨source, target, wire⟩ =
          .success .raw (Folding.gather peak operations) false := by
        intro target
        show Folding.raw peak operations _ = _
        rw [Folding.raw, hkind]
      rw [hfold, hfold]
      exact Or.inl ⟨rfl, rfl⟩
  | creation template => exact absurd hrests (passes_creation hstart hslot htag template operations).not_rests
  | destruction => exact Or.inr (passes_destruction hstart hnew operations)
  | ping =>
    have hping : (Folding.ping peak operations new).Passes := by
      rw [Folding.ping, if_neg (by rw [hnew]; simp)]
      exact ⟨rfl, rfl, rfl⟩
    exact Or.inr hping

end Peak

namespace Evaluator

/-- A pulse that came to rest at a cell passes it where the cell is a slot, if all that leads to the cell is
the same. -/
theorem Walk.passes_emptied {c d : Circuit} {tick tick' : Int} {colour : Colour} {among : CellId → Prop}
    (hclosed : c.Closed colour among) (hkeyed : d.Keyed) (halike : ShowsAlike c d among) {fuel : Nat}
    {old new : Cell}
    (hold : old.kind.isDestroyable = true) (htag : old.hasTag .justCreated = false) (hnew : new.kind = .slot)
    {inputs : List WireId} {peak rest : Peak} {e f e' : Evaluator}
    (h : Walk fuel (.fold c tick old colour inputs peak) e (.ok rest) f) (hrest : rest.isHalted = true)
    (hstart : peak = .nothing ∨ peak = .raw) (htidy : Tidy e)
    (habreast : Abreast c d tick tick' colour among e e')
    (hinputs : ∀ input ∈ inputs, c.DrawsOn colour among input) :
    ∃ passed f', Walk fuel (.fold d tick' new colour inputs peak) e' (.ok passed) f' ∧ passed.Passes := by
  have hacts := halike.actAlike hclosed hkeyed
  induction inputs generalizing peak e e' with
  | nil =>
    cases h
    rcases hstart with rfl | rfl
    · cases hrest
    · cases hrest
  | cons input inputs ih =>
    have htail : ∀ w ∈ inputs, c.DrawsOn colour among w := fun w hw => hinputs w (List.mem_cons_of_mem _ hw)
    have hhead : (Task.fold c tick old colour (input :: inputs) peak).Within c tick colour among :=
      ⟨rfl, rfl, rfl, hinputs⟩
    cases h with
    | skip hwire hadmits hfold =>
      obtain ⟨passed, f', hpassed⟩ := ih hfold hstart htidy habreast htail
      exact ⟨passed, f', .skip (halike.wire _ _ hwire) hadmits hpassed.1, hpassed.2⟩
    | settle hwire hadmits hsource hlook hfinal =>
      obtain ⟨g', hlook', -⟩ := hlook.moved hacts habreast (hhead.look hclosed hwire hadmits hsource) .look
      have hthere := halike.cell _ _ (hhead.among_source hwire hadmits).1 hsource
      rcases Peak.fold_emptied hstart hold htag hnew (fun _ => hrest) with ⟨-, hopen⟩ | hpasses
      · rw [hrest] at hopen
        cases hopen
      · exact ⟨_, g', .settle (halike.wire _ _ hwire) hadmits hthere hlook' hpasses.2.2, hpasses⟩
    | proceed hwire hadmits hsource hlook hfinal hfold =>
      obtain ⟨g', hlook', hmid⟩ := hlook.moved hacts habreast (hhead.look hclosed hwire hadmits hsource) .look
      have hthere := halike.cell _ _ (hhead.among_source hwire hadmits).1 hsource
      obtain ⟨htidy', hfits⟩ := hlook.tidy htidy trivial
      have hstart' := Peak.Shaped.start_of_fold hstart (hfits _ rfl).travels hfinal
      rcases Peak.fold_emptied hstart hold htag hnew (fun htrue => by rw [hfinal] at htrue; cases htrue) with
        ⟨hsame, -⟩ | hpasses
      · obtain ⟨passed, f', hpassed⟩ := ih hfold hstart' htidy' hmid htail
        rw [← hsame] at hpassed hfinal
        exact ⟨passed, f', .proceed (halike.wire _ _ hwire) hadmits hthere hlook' hfinal hpassed.1, hpassed.2⟩
      · exact ⟨_, g', .settle (halike.wire _ _ hwire) hadmits hthere hlook' hpasses.2.2, hpasses⟩

end Evaluator

namespace Cell

theorem foldl_after_of_spared (cell : Cell) {operations : List Operation}
    (hspared : ∀ operation ∈ operations, operation.target = cell.id.toId → ∃ y, operation = .pong y) :
    operations.foldl after cell = cell := by
  induction operations with
  | nil => rfl
  | cons operation operations ih =>
    have hfirst : cell.after operation = cell := by
      unfold after
      split
      next id fields =>
        refine if_neg fun hid => ?_
        obtain ⟨y, hy⟩ := hspared _ List.mem_cons_self (by rw [Operation.target, hid])
        cases hy
      next id key =>
        refine if_neg fun hid => ?_
        obtain ⟨y, hy⟩ := hspared _ List.mem_cons_self (by rw [Operation.target, hid])
        cases hy
      · rfl
      · rfl
    rw [List.foldl_cons, hfirst]
    exact ih fun other hmem => hspared other (List.mem_cons_of_mem _ hmem)

end Cell

namespace Machine

variable {m m' : Machine} {gathered : Harvest} {report : BeatReport} {projected : Circuit} {colour : Colour}
  {id : CellId}

/-! ## Cells that are left alone -/

/-- The beat leaves the cell as it is: it has no tags to clear, and no operation is about it. -/
def Spared (m : Machine) (report : BeatReport) (id : CellId) : Prop :=
  (∃ cell, m.circuit.cell? id = some cell ∧ cell.tags = []) ∧
    ∀ operation ∈ report.operations, operation.target ≠ id.toId

theorem Sound.cell?_of_spared (h : m.Sound) {stats : EvalStats}
    (hspared : m.Spared (m.report gathered stats) id) :
    (m.changed gathered).cell? id = m.circuit.cell? id := by
  obtain ⟨⟨cell, hcell, htags⟩, hoperations⟩ := hspared
  have hid := id_of_cell? h.circuit.linked.keyed hcell
  have hcleared : ({ cell with tags := [] } : Cell) = cell := by rw [← htags]
  rw [h.cell?_changed, hcell, Option.map_some, hcleared, cell.foldl_after_of_spared]
  intro operation hmem htarget
  by_contra hpong
  have hreported : operation ∈ (m.report gathered stats).operations :=
    mem_report_operations.mpr ⟨hmem, fun y hy => hpong ⟨y, hy⟩⟩
  exact hoperations operation hreported (hid ▸ htarget)

/-! ## Asking about the past -/

theorem history_movedOn (hlimit : 1 ≤ m.historyLimit) :
    (m.movedOn gathered projected).history = m.changed gathered :: m.history.take (m.historyLimit - 1) := by
  rw [movedOn, List.take_cons hlimit]

/-- The nearest tick that is remembered after a beat shows the circuit as the beat has changed it. -/
theorem shows_changed (hlimit : 1 ≤ m.historyLimit) :
    (m.movedOn gathered projected).evaluator.Shows (-1) (m.changed gathered) := by
  have hhistory : (m.movedOn gathered projected).history = _ := history_movedOn hlimit
  have hlength : 1 ≤ ((m.movedOn gathered projected).toHistory.given .past).length := by
    rw [History.given, toHistory, hhistory]
    simp
  obtain ⟨c, hc, hframe⟩ := (m.movedOn gathered projected).toHistory.frame?_fresh
    (by decide : Timing.past ≠ .now) hlength
  refine ⟨_, hframe, ?_⟩
  rw [History.given, toHistory, hhistory] at hc
  exact (Option.some.inj hc).symm

variable {d : Circuit} {cell : Cell} {among : CellId → Prop} {peak : Peak}

theorem shows_present (m : Machine) : m.evaluator.Shows Timing.now.step m.circuit :=
  ⟨_, m.toHistory.present_frame, rfl⟩

/-- A question about a tick that is recorded is asked in that tick. -/
theorem ask_of_peak {timing : Timing} (hshows : m.evaluator.Shows timing.step d)
    (hcell : m.circuit.cell? id = some cell) {answer : Except Fault Peak}
    (hanswer : m.peak id colour timing = answer) :
    ∃ f, Walk m.evaluator.depthBound (.ask timing.step id colour) m.evaluator answer f := by
  subst hanswer
  have hwalk := walk_of_live ⟨id, colour, timing⟩ m.toHistory.present_frame (cell_ok_iff.mpr hcell)
  rw [← Int.zero_add timing.step] at hshows ⊢
  exact ⟨_, hwalk.ask_of_look hshows List.not_mem_nil⟩

/-- Among cells that lead to each other in that tick it is answered. -/
theorem exists_peak {timing : Timing} (hshows : m.evaluator.Shows timing.step d)
    (hcell : m.circuit.cell? id = some cell) (hclosed : d.Closed colour among) (hid : among id) :
    ∃ peak, m.peak id colour timing = .ok peak := by
  obtain ⟨f, hwalk⟩ := ask_of_peak hshows hcell rfl
  obtain ⟨peak, g, hfound⟩ := exists_ask hclosed hshows hid
  exact ⟨peak, (hwalk.unique hfound).1⟩

/-- The answer is that of any walk in that tick that finds a peak, however deep it goes. -/
theorem peak_eq_of_walk {timing : Timing} (hshows : m.evaluator.Shows timing.step d)
    (hcell : m.circuit.cell? id = some cell) (hclosed : d.Closed colour among) (hid : among id) {fuel : Nat}
    {f : Evaluator} (hwalk : Walk fuel (.ask timing.step id colour) m.evaluator (.ok peak) f) :
    m.peak id colour timing = .ok peak := by
  obtain ⟨g, hasked⟩ := ask_of_peak hshows hcell rfl
  exact hasked.ask_eq hclosed hshows hid hwalk

/-- A peak at rest was gathered from the inputs of the cell, which stores no pulse that ends the gathering. -/
theorem fold_of_halted {fuel : Nat} {f : Evaluator}
    (hwalk : Walk fuel (.ask 0 id colour) m.evaluator (.ok peak) f) (hcell : m.circuit.cell? id = some cell)
    (hhalted : peak.isHalted = true) :
    (Peak.ofPulse? (cell.fire.get colour) []).isFinal = false ∧
      ∃ n g, Walk n (.fold m.circuit 0 cell colour cell.inputs (.ofPulse? (cell.fire.get colour) []))
        (m.evaluator.enter ⟨0, id, colour⟩).counting (.ok peak) g := by
  have hpresent : m.evaluator.timeline.frame? 0 = some ⟨.given, m.circuit⟩ := m.toHistory.present_frame
  cases hwalk with
  | reuse hdone => cases hdone
  | again => cases hhalted
  | descend _ hbody =>
    cases hbody with
    | frameless | absent => cases hhalted
    | stored =>
      rw [Peak.isHalted_ofPulse?] at hhalted
      cases hhalted
    | gather hframe htarget hfinal hfold =>
      cases hpresent.symm.trans hframe
      cases (cell_ok_iff.mpr hcell).symm.trans htarget
      exact ⟨hfinal, _, _, hfold⟩

/-! ## What leads to a cell -/

/-- In one colour no wire leaves the present. -/
def Level (m : Machine) (colour : Colour) : Prop :=
  ∀ w wire, m.circuit.wire w = .ok wire → wire.colour.admits colour = true → wire.timing = .now

theorem Sound.closed (h : m.Sound) (hlevel : m.Level colour)
    (hlive : ∀ x, among x → ∃ cell, m.circuit.cell x = .ok cell)
    (hback : ∀ x y, m.circuit.Feeds colour x y → among y → among x) : m.circuit.Closed colour among := by
  refine h.circuit.linked.closed hlive fun w wire hwire hadmits htarget => ?_
  exact ⟨hback _ _ ⟨w, wire, hwire, hadmits, rfl, rfl⟩ htarget, hlevel w wire hwire hadmits⟩

theorem Sound.exists_source (h : m.Sound) {x y : CellId} (hfeeds : m.circuit.Feeds colour x y) :
    ∃ cell, m.circuit.cell x = .ok cell := by
  obtain ⟨w, wire, hwire, -, rfl, -⟩ := hfeeds
  exact h.circuit.linked.toWellLinked.source_live _ _ hwire

theorem Sound.closed_before (h : m.Sound) (hlevel : m.Level colour) (id : CellId) :
    m.circuit.Closed colour fun x => Relation.TransGen (m.circuit.Feeds colour) x id := by
  refine h.closed hlevel (fun x hx => ?_) fun x y hfeeds hy => .head hfeeds hy
  obtain ⟨y, hfeeds, -⟩ := Relation.TransGen.head'_iff.mp hx
  exact h.exists_source hfeeds

theorem Sound.closed_upto (h : m.Sound) (hlevel : m.Level colour) (hcell : m.circuit.cell? id = some cell) :
    m.circuit.Closed colour fun x => Relation.ReflTransGen (m.circuit.Feeds colour) x id :=
  h.circuit.linked.closed_upstream (fun w wire hwire hadmits _ => hlevel w wire hwire hadmits)
    ⟨cell, cell_ok_iff.mpr hcell⟩

theorem wire_changed (hharvest : m.Harvested gathered) (h : m.Sound) {w : WireId} {wire : Wire} :
    (m.changed gathered).wire w = .ok wire ↔ m.circuit.wire w = .ok wire := by
  rw [wire_ok_iff, wire_ok_iff, (hharvest.sameLayout_changed h).wire]

/-- The circuit a beat leaves has the cells and wires it had. -/
theorem Harvested.closed_changed (hharvest : m.Harvested gathered) (h : m.Sound) (hlevel : m.Level colour) :
    (m.changed gathered).Closed colour fun x => ∃ cell, m.circuit.cell? x = some cell := by
  have hlayout := hharvest.sameLayout_changed h
  refine (h.linked_changed gathered).closed ?_ ?_
  · rintro x ⟨cell, hcell⟩
    obtain ⟨new, hnew, -⟩ := hlayout.exists_cell hcell
    exact ⟨new, cell_ok_iff.mpr hnew⟩
  · intro w wire hwire hadmits _
    rw [wire_changed hharvest h] at hwire
    obtain ⟨source, hsource⟩ := h.circuit.linked.source_live (wire_ok_iff.mp hwire)
    exact ⟨⟨source, hsource⟩, hlevel w wire hwire hadmits⟩

/-- What a beat spares it shows as before. -/
theorem Harvested.showsAlike (hharvest : m.Harvested gathered) (h : m.Sound) {stats : EvalStats}
    (hspared : ∀ x, among x → m.Spared (m.report gathered stats) x) :
    ShowsAlike m.circuit (m.changed gathered) among where
  cell x cell hx hcell := by
    rw [cell_ok_iff] at hcell ⊢
    rw [h.cell?_of_spared (hspared x hx)]
    exact hcell
  wire _ _ hwire := (wire_changed hharvest h).mpr hwire

/-- Before anything is asked the two evaluators have come equally far. -/
theorem abreast_movedOn (hlimit : 1 ≤ m.historyLimit) :
    Abreast m.circuit (m.changed gathered) 0 (-1) colour among m.evaluator
      (m.movedOn gathered projected).evaluator where
  shows := m.shows_present
  shows' := shows_changed hlimit
  depth := rfl
  reentered := rfl
  memo _ _ := rfl

/-! ## Looking back -/

/-- What is answered about the past of a cell after a beat has found a peak there. -/
structure SeenAs (m : Machine) (report : BeatReport) (m' : Machine) (id : CellId) (colour : Colour)
    (peak past : Peak) : Prop where
  /-- It is what is found in the circuit that is remembered of the beat, were it the present. -/
  shown : ∀ kept, m'.history.head? = some kept → { m with circuit := kept }.peak id colour .now = .ok past
  /-- It is the same where the cell and all that leads to it was spared. -/
  same : (∀ x, Relation.ReflTransGen (m.circuit.Feeds colour) x id → m.Spared report x) → past = peak
  /-- A slot that was filled takes no creation pulse. -/
  filled : ∀ template operations, peak = .success (.creation template) operations true →
    ∀ other, past.pulse? ≠ some (.creation other)
  /-- A cell that was emptied still succeeds, but the pulse does not come to rest there. -/
  emptied : ∀ operations, peak = .success .destruction operations true →
    (∀ cell, m.circuit.cell? id = some cell → cell.tags = []) →
    (∀ x, Relation.TransGen (m.circuit.Feeds colour) x id → m.Spared report x) →
    past.isSuccess = true ∧ past.isHalted = false

section Looking

variable {stats : EvalStats} {past : Peak}
  (h : m.Sound) (hharvest : m.Harvested gathered) (hlevel : m.Level colour) (hlimit : 1 ≤ m.historyLimit)
  (hcell : m.circuit.cell? id = some cell)
  (hlive : ∃ new, (m.movedOn gathered projected).circuit.cell? id = some new)

include h hharvest hlevel hlimit hcell hlive

/-- After a beat a question about the past is answered as the circuit it has left shows. -/
theorem peak_past_of_walk {fuel : Nat} {f : Evaluator}
    (hwalk : Walk fuel (.ask (-1) id colour) (m.movedOn gathered projected).evaluator (.ok peak) f) :
    (m.movedOn gathered projected).peak id colour .past = .ok peak := by
  obtain ⟨new, hnew⟩ := hlive
  have hshows : (m.movedOn gathered projected).evaluator.Shows Timing.past.step (m.changed gathered) :=
    shows_changed hlimit
  exact peak_eq_of_walk hshows hnew (hharvest.closed_changed h hlevel) ⟨cell, hcell⟩ hwalk

theorem exists_peak_past : ∃ past, (m.movedOn gathered projected).peak id colour .past = .ok past := by
  obtain ⟨new, hnew⟩ := hlive
  have hshows : (m.movedOn gathered projected).evaluator.Shows Timing.past.step (m.changed gathered) :=
    shows_changed hlimit
  exact exists_peak hshows hnew (hharvest.closed_changed h hlevel) ⟨cell, hcell⟩

/-- It is answered as a question about the present would be, if the machine had not moved on. -/
theorem peak_now_of_past (hpast : (m.movedOn gathered projected).peak id colour .past = .ok peak)
    {kept : Circuit} (hkept : (m.movedOn gathered projected).history.head? = some kept) :
    { m with circuit := kept }.peak id colour .now = .ok peak := by
  obtain rfl : kept = m.changed gathered := by
    rw [history_movedOn hlimit] at hkept
    exact (Option.some.inj hkept).symm
  obtain ⟨new, hnew⟩ := hlive
  obtain ⟨old, hold, -⟩ := (hharvest.sameLayout_changed h).exists_cell hcell
  have hthere : (m.movedOn gathered projected).evaluator.Shows Timing.past.step (m.changed gathered) :=
    shows_changed hlimit
  have hhere := shows_present { m with circuit := m.changed gathered }
  obtain ⟨f, hwalk⟩ := ask_of_peak hthere hnew hpast
  have hclosed := hharvest.closed_changed h hlevel
  have hsame : ShowsAlike (m.changed gathered) (m.changed gathered)
      fun x => ∃ cell, m.circuit.cell? x = some cell := ⟨fun _ _ _ h => h, fun _ _ h => h⟩
  obtain ⟨f', hmoved, -⟩ := hwalk.moved (hsame.actAlike hclosed hclosed.keyed)
    ⟨hthere, hhere, rfl, rfl, fun _ _ => rfl⟩ ⟨rfl, rfl, cell, hcell⟩ .ask
  exact peak_eq_of_walk hhere hold hclosed ⟨cell, hcell⟩ hmoved

theorem peak_past_of_spared (hnow : m.peak id colour .now = .ok peak)
    (hspared : ∀ x, Relation.ReflTransGen (m.circuit.Feeds colour) x id →
      m.Spared (m.report gathered stats) x) :
    (m.movedOn gathered projected).peak id colour .past = .ok peak := by
  obtain ⟨f, hwalk⟩ := ask_of_peak m.shows_present hcell hnow
  have hacts := (hharvest.showsAlike h hspared).actAlike (h.closed_upto hlevel hcell)
    (h.linked_changed gathered).keyed
  obtain ⟨f', hmoved, -⟩ := hwalk.moved hacts (abreast_movedOn hlimit) ⟨rfl, rfl, .refl⟩ .ask
  exact peak_past_of_walk h hharvest hlevel hlimit hcell hlive hmoved

theorem peak_past_of_emptied {operations : List Operation}
    (hnow : m.peak id colour .now = .ok (.success .destruction operations true))
    (hfinds : m.Finds id colour (.success .destruction operations true)) (htags : cell.tags = [])
    (hspared : ∀ x, Relation.TransGen (m.circuit.Feeds colour) x id → m.Spared (m.report gathered stats) x) :
    ∃ past, (m.movedOn gathered projected).peak id colour .past = .ok past ∧ past.Passes := by
  have hempties : m.Empties id := ⟨colour, operations, hfinds⟩
  obtain ⟨f, hwalk⟩ := ask_of_peak m.shows_present hcell hnow
  obtain ⟨hfinal, n, g, hfold⟩ := fold_of_halted hwalk hcell rfl
  -- the cell is a slot by now, with the inputs and the pulses it had
  obtain ⟨new, hnew, houtline⟩ := (hharvest.sameLayout_changed h).exists_cell hcell
  have hfire : new.fire = cell.fire := by
    have hsame : ((m.changed gathered).cell? id).map Cell.fire = _ := h.fire_changed id
    rw [hnew, hcell] at hsame
    exact Option.some.inj hsame
  have hkind : new.kind = .slot := by
    have hafter : (m.changed gathered).cell? id = _ := h.cell?_changed id
    rw [hnew, hcell, Option.map_some, Option.some.injEq] at hafter
    rcases hharvest.kind_cases h hcell rfl with ⟨-, hslot⟩ | ⟨template, hfills, -⟩ | ⟨hnot, -⟩
    · rw [hafter, hslot]
    · exact absurd hfills (hempties.not_fills h hcell template)
    · exact absurd hempties hnot
  have hinputs : ∀ input ∈ cell.inputs, m.circuit.DrawsOn colour
      (fun x => Relation.TransGen (m.circuit.Feeds colour) x id) input := by
    intro input hinput
    obtain ⟨wire, hwire, htarget⟩ :=
      (h.circuit.linked.toWellLinked.mem_inputs_iff _ _ _ (cell_ok_iff.mpr hcell)).mp hinput
    exact ⟨wire, hwire, fun hadmits => ⟨.single ⟨input, wire, hwire, hadmits, rfl, htarget⟩,
      hlevel _ _ hwire hadmits⟩⟩
  have htidy : Tidy (m.evaluator.enter ⟨0, id, colour⟩).counting := by
    have hentered := h.tidy.enter ⟨0, id, colour⟩
    exact ⟨hentered.keyed, hentered.memo⟩
  obtain ⟨passed, g', hpassed, hpasses⟩ := hfold.passes_emptied (h.closed_before hlevel id)
    (h.linked_changed gathered).keyed (hharvest.showsAlike h hspared) (hempties.destroyable h hcell)
    (by simp [Cell.hasTag, htags]) hkind rfl (Peak.Shaped.start_ofPulse? hfinal) htidy
    ((abreast_movedOn hlimit).enter id).counting hinputs
  refine ⟨passed, ?_, hpasses⟩
  obtain ⟨frame, hframe, hcircuit⟩ :
      (m.movedOn gathered projected).evaluator.Shows (-1) (m.changed gathered) := shows_changed hlimit
  have hsame : cell.inputs = new.inputs := (congrArg Cell.inputs houtline).symm
  rw [← hfire] at hpassed hfinal
  rw [hsame, ← hcircuit] at hpassed
  rw [← hcircuit, ← cell_ok_iff] at hnew
  exact peak_past_of_walk h hharvest hlevel hlimit hcell hlive
    (.descend rfl (.gather hframe hnew hfinal hpassed))

end Looking

/-- A slot that was filled is tagged, so no creation pulse is seen there. -/
theorem Harvested.past_of_filled (hharvest : m.Harvested gathered) (h : m.Sound) (hlimit : 1 ≤ m.historyLimit)
    (hsound : (m.movedOn gathered projected).Sound) (hcell : m.circuit.cell? id = some cell)
    {template : Option Template} {operations : List Operation}
    (hnow : m.peak id colour .now = .ok (.success (.creation template) operations true))
    (hfinds : m.Finds id colour (.success (.creation template) operations true)) {past : Peak}
    (hpast : (m.movedOn gathered projected).peak id colour .past = .ok past) (other : Option Template) :
    past.pulse? ≠ some (.creation other) := by
  have hfills : ∃ template, m.Fills id template := by
    rcases hfinds.halted_cases h hcell rfl with ⟨found, heq, -, -⟩ | ⟨heq, -⟩
    · cases heq
      exact ⟨found, colour, _, hfinds⟩
    · cases heq
  obtain ⟨f, hwalk⟩ := ask_of_peak m.shows_present hcell hnow
  obtain ⟨hfinal, -⟩ := fold_of_halted hwalk hcell rfl
  have hreply : (m.movedOn gathered projected).evaluator.reply ⟨id, colour, .past⟩ = .ok past := hpast
  rcases hsound.tidy.reply hreply with rfl | ⟨frame, new, hframe, hnew, -, hshaped⟩
  · simp [Peak.pulse?, Peak.nothing]
  have hgrows : Grows (m.movedOn gathered projected).evaluator
      ((m.movedOn gathered projected).evaluator.next ⟨id, colour, .past⟩) :=
    asked_invariant (fun hwalk hgrows => hgrows.trans hwalk.grows) (.refl _) [⟨id, colour, .past⟩]
  rw [((shows_changed hlimit).grows hgrows).circuit_eq hframe, cell_ok_iff, h.cell?_changed, hcell,
    Option.map_some, Option.some.injEq] at hnew
  have htagged : new.hasTag .justCreated = true := by
    have htag := (hharvest.mem_tag_iff h hcell).mpr hfills
    rw [← id_of_cell? h.circuit.linked.keyed hcell] at htag
    rw [← hnew, Cell.hasTag_foldl_after]
    exact Or.inr htag
  have hfire : new.fire = cell.fire := by rw [← hnew, Cell.fire_foldl_after]
  intro hcreation
  cases hshaped with
  | stored hheld =>
    rw [hfire] at hheld
    rw [hheld] at hfinal
    cases Option.some.inj hcreation
    cases hfinal
  | creation _ htag => cases htagged.symm.trans htag
  | filled _ htag => cases htagged.symm.trans htag
  | nothing | raw | ping | destruction | emptied => cases hcreation

/-! The factory has two wires, one to the slot and one to the recording cell. -/

theorem wires_factory : ∀ w wire, factory.circuit.wire w = .ok wire → wire.timing = .now ∧
    ((wire.source = ⟨1⟩ ∧ wire.target = ⟨2⟩) ∨ (wire.source = ⟨3⟩ ∧ wire.target = ⟨4⟩)) := by
  have hwires : ∀ wire ∈ factory.circuit.wires, wire.timing = .now ∧
      ((wire.source = ⟨1⟩ ∧ wire.target = ⟨2⟩) ∨ (wire.source = ⟨3⟩ ∧ wire.target = ⟨4⟩)) := by
    decide +kernel
  intro w wire hwire
  exact hwires wire (mem_wires_iff_exists.mpr ⟨w, wire_ok_iff.mp hwire⟩)

theorem feeds_factory {x y : CellId} (hfeeds : factory.circuit.Feeds .red x y) :
    (x = ⟨1⟩ ∧ y = ⟨2⟩) ∨ (x = ⟨3⟩ ∧ y = ⟨4⟩) := by
  obtain ⟨w, wire, hwire, -, rfl, rfl⟩ := hfeeds
  exact (wires_factory w wire hwire).2

theorem first_factory {x y : CellId} (hy : y = ⟨1⟩ ∨ y = ⟨3⟩)
    (hway : Relation.ReflTransGen (factory.circuit.Feeds .red) x y) : x = y := by
  rcases Relation.ReflTransGen.cases_tail hway with rfl | ⟨z, -, hlast⟩
  · rfl
  · rcases feeds_factory hlast with ⟨-, rfl⟩ | ⟨-, rfl⟩
    · simp at hy
    · simp at hy

/-- The two cells that no wire leads to are spared. -/
theorem beat_factory : ∃ report m', Machine.beat factory = .ok report m' ∧
    ∀ x, x = ⟨1⟩ ∨ x = ⟨3⟩ → factory.Spared report x := by
  have hread : Machine.beat.read? (fun report _ => report.operations) factory =
      some [.modify ⟨2⟩ (.ofKind .recording), .tag ⟨2⟩ .justCreated, .modify ⟨4⟩ (.ofKind .slot)] := by
    decide +kernel
  obtain ⟨report, m', hbeat, hoperations⟩ := exists_of_read? hread
  have htargets : ∀ x : CellId, x = ⟨1⟩ ∨ x = ⟨3⟩ →
      ∀ operation ∈ report.operations, operation.target ≠ x.toId := by
    rw [hoperations]
    rintro x (rfl | rfl)
    · decide
    · decide
  refine ⟨report, m', hbeat, fun x hx => ⟨?_, htargets x hx⟩⟩
  rcases hx with rfl | rfl
  · exact ⟨_, rfl, rfl⟩
  · exact ⟨_, rfl, rfl⟩

/-- After a beat of a reachable machine in which no wire leaves the present, a question about the past is
answered, and what it finds is the beat's own peak as the beat has left it. The beat asks all its questions of
one evaluator, so it is taken to have found what a fresh one finds. -/
theorem Reachable.looks_back (h : m.Reachable) (hlevel : m.Level colour) (hlimit : 1 ≤ m.historyLimit)
    (hbeat : Machine.beat m = .ok report m') (hcell : m.circuit.cell? id = some cell)
    (hfinds : m.Finds id colour peak) (hnow : m.peak id colour .now = .ok peak) :
    ∃ past, m'.peak id colour .past = .ok past ∧ m.SeenAs report m' id colour peak past := by
  have hsound := h.sound.beat
  rw [final_of_ok hbeat] at hsound
  obtain ⟨gathered, stats, projected, hharvest, hproject, rfl, rfl⟩ := h.sound.beat_cases_of_ok hbeat
  have hlayout := (hharvest.sameLayout_changed h.sound).trans (.of_project hproject)
  have hlive : ∃ new, (m.movedOn gathered projected).circuit.cell? id = some new := by
    obtain ⟨new, hnew, -⟩ := hlayout.exists_cell hcell
    exact ⟨new, hnew⟩
  obtain ⟨past, hpast⟩ := exists_peak_past h.sound hharvest hlevel hlimit hcell hlive
  refine ⟨past, hpast, ?_, ?_, ?_, ?_⟩
  · intro kept hkept
    exact peak_now_of_past h.sound hharvest hlevel hlimit hcell hlive hpast hkept
  · intro hspared
    have hsame := peak_past_of_spared h.sound hharvest hlevel hlimit hcell hlive hnow hspared
    exact Except.ok.inj (hpast.symm.trans hsame)
  · rintro template operations rfl
    exact hharvest.past_of_filled h.sound hlimit hsound hcell hnow hfinds hpast
  · rintro operations rfl htags hspared
    obtain ⟨passed, hpassed, hpasses⟩ := peak_past_of_emptied h.sound hharvest hlevel hlimit hcell hlive hnow
      hfinds (htags cell hcell) hspared
    cases hpast.symm.trans hpassed
    exact ⟨hpasses.1, hpasses.2.1⟩

/-- In the factory the pulse that filled the slot is not seen there, the one that emptied the recording cell
passes it, and the creation cell, to which nothing leads, is seen as it was. -/
theorem looks_back_factory :
    ∃ report m', Machine.beat factory = .ok report m' ∧
      (∃ past, m'.peak ⟨2⟩ .red .past = .ok past ∧ ∀ template, past.pulse? ≠ some (.creation template)) ∧
      (∃ past, m'.peak ⟨4⟩ .red .past = .ok past ∧ past.isSuccess = true ∧ past.isHalted = false) ∧
      m'.peak ⟨1⟩ .red .past = .ok (.success .raw [] false) := by
  have hfactory : factory.Reachable := .performAll (.new true) _
  have hlevel : factory.Level .red := fun w wire hwire _ => (wires_factory w wire hwire).1
  have hlimit : 1 ≤ factory.historyLimit := by decide
  obtain ⟨report, m', hbeat, hspared⟩ := beat_factory
  refine ⟨report, m', hbeat, ?_, ?_, ?_⟩
  · have hfinds : factory.Finds ⟨2⟩ .red (.success (.creation (some ⟨.recording, .origin⟩))
        [.modify ⟨2⟩ (.ofKind .recording), .tag ⟨2⟩ .justCreated] true) := by
      unfold Finds
      decide +kernel
    obtain ⟨past, hpast, hseen⟩ := hfactory.looks_back hlevel hlimit hbeat rfl hfinds (by decide +kernel)
    exact ⟨past, hpast, hseen.filled _ _ rfl⟩
  · have hfinds : factory.Finds ⟨4⟩ .red (.success .destruction [.modify ⟨4⟩ (.ofKind .slot)] true) := by
      unfold Finds
      decide +kernel
    obtain ⟨past, hpast, hseen⟩ := hfactory.looks_back hlevel hlimit hbeat rfl hfinds (by decide +kernel)
    refine ⟨past, hpast, hseen.emptied _ rfl ?_ ?_⟩
    · intro cell hcell
      cases hcell
      rfl
    · intro x hway
      obtain ⟨y, hbefore, hlast⟩ := Relation.TransGen.tail'_iff.mp hway
      rcases feeds_factory hlast with ⟨-, hfour⟩ | ⟨rfl, -⟩
      · simp at hfour
      · exact hspared x (Or.inr (first_factory (Or.inr rfl) hbefore))
  · have hfinds : factory.Finds ⟨1⟩ .red (.success .raw [] false) := by
      unfold Finds
      decide +kernel
    obtain ⟨past, hpast, hseen⟩ := hfactory.looks_back hlevel hlimit hbeat rfl hfinds (by decide +kernel)
    rw [hpast, hseen.same fun x hway => hspared x (Or.inl (first_factory (Or.inl rfl) hway))]

/-- A lit creation cell with a wire to a slot. -/
def filling : Machine :=
  (ofCircuit true .initial).performAll
    [.edit true (.createCell .root .creation .origin), .edit true (.createCell .root .slot .origin),
      .edit true (.createWire ⟨1⟩ ⟨2⟩ .any .now), .fire ⟨1⟩ .red]

/-- Peaks are not seen in the past as the beat has found them: the slot fires in the beat, and is a tagged
recording cell, which takes no creation pulse, in the circuit that is remembered of it. -/
theorem past_differs_at_filled :
    ¬ ∀ (m m' : Machine) (report : BeatReport), m.Reachable →
      (∀ c ∈ m.circuit :: m.history, ∀ w wire, c.wire w = .ok wire → wire.timing = .now) →
      1 ≤ m.historyLimit → Machine.beat m = .ok report m' →
      ∀ id cell colour peak, m.circuit.cell? id = some cell → m.Finds id colour peak →
        ∃ past, m'.peak id colour .past = .ok past ∧ past.isSuccess = peak.isSuccess ∧
          past.isHalted = peak.isHalted := by
  intro hall
  have hreachable : filling.Reachable := .performAll (.new true) _
  have hnow : ∀ c ∈ filling.circuit :: filling.history, ∀ wire ∈ c.wires, wire.timing = .now := by
    decide +kernel
  have hfinds : filling.Finds ⟨2⟩ .red (.success (.creation (some ⟨.recording, .origin⟩))
      [.modify ⟨2⟩ (.ofKind .recording), .tag ⟨2⟩ .justCreated] true) := by
    unfold Finds
    decide +kernel
  have hread : Machine.beat.read? (fun _ m' => m'.peak ⟨2⟩ .red .past) filling = some (.ok .nothing) := by
    decide +kernel
  obtain ⟨report, m', hbeat, hafter⟩ := exists_of_read? hread
  obtain ⟨past, hpast, hsuccess, -⟩ := hall filling m' report hreachable
    (fun c hc w wire h => hnow c hc wire (mem_wires_iff_exists.mpr ⟨w, wire_ok_iff.mp h⟩)) (by decide) hbeat
    ⟨2⟩ _ .red _ rfl hfinds
  cases hpast.symm.trans hafter
  cases hsuccess

/-- A ping comes to one relay of a loop, a creation pulse to the other one, and this one leads to a stopper. -/
def revolving : Machine :=
  (ofCircuit true .initial).performAll
    [.edit true (.createCell .root .relay .origin), .edit true (.createCell .root .relay .origin),
      .edit true (.createCell .root .relay .origin), .edit true (.createCell .root .creation .origin),
      .edit true (.createCell .root .stopper .origin), .edit true (.createWire ⟨2⟩ ⟨1⟩ .any .now),
      .edit true (.createWire ⟨3⟩ ⟨1⟩ .any .now), .edit true (.createWire ⟨1⟩ ⟨2⟩ .any .now),
      .edit true (.createWire ⟨4⟩ ⟨2⟩ .any .now), .edit true (.createWire ⟨2⟩ ⟨5⟩ .any .now),
      .edit true (.fire ⟨3⟩ .red .ping), .fire ⟨4⟩ .red]

/-- Nor can it be left out that a fresh evaluator finds what the beat has found. The beat changes nothing here,
but it asks about the first relay before it comes to the stopper. -/
theorem past_depends_on_order :
    ∃ report m', Machine.beat revolving = .ok report m' ∧ report.operations = [] ∧
      revolving.Finds ⟨5⟩ .red (.success (.creation (some ⟨.stopper, .origin⟩)) [] false) ∧
      revolving.peak ⟨5⟩ .red .now = .ok .nothing ∧ m'.peak ⟨5⟩ .red .past = .ok .nothing := by
  have hfinds : revolving.Finds ⟨5⟩ .red (.success (.creation (some ⟨.stopper, .origin⟩)) [] false) := by
    unfold Finds
    decide +kernel
  have hread : Machine.beat.read? (fun report m' => (report.operations, m'.peak ⟨5⟩ .red .past)) revolving =
      some ([], .ok .nothing) := by
    decide +kernel
  obtain ⟨report, m', hbeat, hlook⟩ := exists_of_read? hread
  obtain ⟨hoperations, hpast⟩ := Prod.mk.inj hlook
  exact ⟨report, m', hbeat, hoperations, hfinds, by decide +kernel, hpast⟩

end Machine

end PulseCircuit
