import PulseCircuit.Proofs.Chart
import PulseCircuit.Proofs.Reachable

/-!
# Walks that stay in one tick

Where no wire leaves the tick, a walk is all about the cells that lead to where it began. It sees nothing of
the other ticks, nor does it see which tick it is in.

* `Closed`: cells that only cells of the same kind lead to, by wires that stay in their tick;
* `Walk.answers_within`: among them a walk has an answer, or is cut off with room for as many keys as it was
  allowed to go deep;
* `ActAlike`: two circuits that cannot be told apart by the peaks of some cells in one colour;
* `Walk.moved`: a walk among these can be taken in any tick of the other circuit.
-/

namespace PulseCircuit

/-- What folding reads of a hop is the kind of its source, and of its target all but links and pulses. -/
theorem Peak.fold_congr {source source' target target' : Cell} {wire wire' : Wire}
    (hsource : source.kind = source'.kind) (hid : target.id = target'.id) (hkind : target.kind = target'.kind)
    (hposition : target.position = target'.position)
    (hfresh : target.hasTag .justCreated = target'.hasTag .justCreated) (peak next : Peak) :
    peak.fold next ⟨source, target, wire⟩ = peak.fold next ⟨source', target', wire'⟩ := by
  have hcreation : ∀ template operations, Folding.creation peak template operations target =
      Folding.creation peak template operations target' := by
    intro template operations
    rw [Folding.creation, hfresh]
    cases target
    cases target'
    cases hid
    cases hkind
    cases hposition
    rfl
  have hdestruction : ∀ operations, Folding.destruction peak operations target =
      Folding.destruction peak operations target' := by
    intro operations
    rw [Folding.destruction, Folding.destruction, hid, hkind]
  have hping : ∀ operations, Folding.ping peak operations target = Folding.ping peak operations target' := by
    intro operations
    rw [Folding.ping, Folding.ping, hid, hkind]
  rcases next with _ | ⟨_ | _ | _ | _, operations, _ | _⟩
  case success.raw.false =>
    show Folding.raw peak operations _ = Folding.raw peak operations _
    rw [Folding.raw, Folding.raw, hsource, hcreation, hdestruction]
  case success.creation.false => exact hcreation _ _
  case success.destruction.false => exact hdestruction _
  case success.ping.false => exact hping _
  all_goals rfl

namespace Circuit

/-! ## Cells that lead to each other -/

/-- The wire is there, and if it admits the colour it stays in its tick and starts at one of the cells. -/
def DrawsOn (c : Circuit) (colour : Colour) (among : CellId → Prop) (input : WireId) : Prop :=
  ∃ wire, c.wire input = .ok wire ∧
    (wire.colour.admits colour = true → among wire.source ∧ wire.timing = .now)

/-- The cells are live, and so are the wires that lead to them. Those that admit the colour stay in their tick
and start at some of the cells again. -/
structure Closed (c : Circuit) (colour : Colour) (among : CellId → Prop) : Prop where
  keyed : c.Keyed
  live : ∀ id, among id → ∃ cell, c.cell id = .ok cell
  inputs : ∀ id cell, among id → c.cell id = .ok cell → ∀ input ∈ cell.inputs, c.DrawsOn colour among input

/-- In a linked circuit it is enough to look at the wires. -/
theorem Linked.closed {c : Circuit} (h : c.Linked) {colour : Colour} {among : CellId → Prop}
    (hlive : ∀ id, among id → ∃ cell, c.cell id = .ok cell)
    (hback : ∀ id wire, c.wire id = .ok wire → wire.colour.admits colour = true → among wire.target →
      among wire.source ∧ wire.timing = .now) : c.Closed colour among where
  keyed := h.keyed
  live := hlive
  inputs := by
    intro id cell hid hcell input hinput
    obtain ⟨wire, hwire, rfl⟩ := (h.toWellLinked.mem_inputs_iff _ _ _ hcell).mp hinput
    exact ⟨wire, hwire, fun hadmits => hback _ _ hwire hadmits hid⟩

/-- The keys of all cells in a tick. -/
def keysIn (c : Circuit) (tick : Int) (colour : Colour) : List MemoKey :=
  c.cells.map fun cell => ⟨tick, cell.id, colour⟩

theorem mem_keysIn {c : Circuit} (hkeyed : c.Keyed) (tick : Int) (colour : Colour) {id : CellId} {cell : Cell}
    (hcell : c.cell id = .ok cell) : ⟨tick, id, colour⟩ ∈ c.keysIn tick colour := by
  rw [cell_ok_iff] at hcell
  refine List.mem_map.mpr ⟨cell, mem_cells_iff_exists.mpr ⟨id, hcell⟩, ?_⟩
  rw [id_of_cell? hkeyed hcell]

/-! ## Circuits that act alike -/

/-- Where an input starts, if it admits the colour. -/
def sourceIn (c : Circuit) (colour : Colour) (input : WireId) : Option CellId :=
  ((c.wire? input).filter (·.colour.admits colour)).map (·.source)

/-- The cells that feed some inputs in a colour, in the order of the inputs. -/
def sourcesIn (c : Circuit) (colour : Colour) (inputs : List WireId) : List CellId :=
  inputs.filterMap (c.sourceIn colour)

/-- What the peaks of one colour tell of two cells is the same: they look the same but for their links and their
pulses of other colours, and the same cells feed them in the same order. -/
structure ActsAs (c d : Circuit) (colour : Colour) (cell other : Cell) : Prop where
  kind : other.kind = cell.kind
  position : other.position = cell.position
  tags : other.tags = cell.tags
  fire : other.fire.get colour = cell.fire.get colour
  sources : d.sourcesIn colour other.inputs = c.sourcesIn colour cell.inputs

/-- In one colour two circuits have the same to tell of cells that lead to each other. -/
structure ActAlike (c d : Circuit) (colour : Colour) (among : CellId → Prop) : Prop where
  closed : c.Closed colour among
  closed' : d.Closed colour among
  acts : ∀ id cell other, among id → c.cell id = .ok cell → d.cell id = .ok other →
    c.ActsAs d colour cell other

/-- One circuit shows the cells, and the wires between them, as the other one does. -/
structure ShowsAlike (c d : Circuit) (among : CellId → Prop) : Prop where
  cell : ∀ id cell, among id → c.cell id = .ok cell → d.cell id = .ok cell
  wire : ∀ id wire, c.wire id = .ok wire → d.wire id = .ok wire

section Sources

variable {c d : Circuit} {colour : Colour} {among : CellId → Prop} {input : WireId} {inputs : List WireId}
  {wire : Wire}

theorem sourceIn_of_admits (hwire : c.wire input = .ok wire) (hadmits : wire.colour.admits colour = true) :
    c.sourceIn colour input = some wire.source := by
  rw [sourceIn, wire_ok_iff.mp hwire, Option.filter_some, if_pos hadmits]
  rfl

theorem sourceIn_of_not_admits (hwire : c.wire input = .ok wire)
    (hadmits : wire.colour.admits colour = false) : c.sourceIn colour input = none := by
  rw [sourceIn, wire_ok_iff.mp hwire, Option.filter_some, if_neg (by simp [hadmits])]
  rfl

theorem DrawsOn.showsAlike (halike : ShowsAlike c d among) (h : c.DrawsOn colour among input) :
    d.DrawsOn colour among input := by
  obtain ⟨wire, hwire, hback⟩ := h
  exact ⟨wire, halike.wire _ _ hwire, hback⟩

theorem ShowsAlike.sourcesIn_eq (halike : ShowsAlike c d among)
    (hinputs : ∀ input ∈ inputs, c.DrawsOn colour among input) :
    d.sourcesIn colour inputs = c.sourcesIn colour inputs := by
  refine List.filterMap_congr fun input hinput => ?_
  obtain ⟨wire, hwire, -⟩ := hinputs input hinput
  rw [sourceIn, sourceIn, wire_ok_iff.mp hwire, wire_ok_iff.mp (halike.wire _ _ hwire)]

theorem ShowsAlike.actAlike (halike : ShowsAlike c d among) (hclosed : c.Closed colour among)
    (hkeyed : d.Keyed) : ActAlike c d colour among where
  closed := hclosed
  closed' :=
    { keyed := hkeyed
      live := by
        intro id hid
        obtain ⟨cell, hcell⟩ := hclosed.live id hid
        exact ⟨cell, halike.cell _ _ hid hcell⟩
      inputs := by
        intro id cell hid hcell input hinput
        obtain ⟨other, hother⟩ := hclosed.live id hid
        cases hcell.symm.trans (halike.cell _ _ hid hother)
        exact (hclosed.inputs id cell hid hother input hinput).showsAlike halike }
  acts := by
    intro id cell other hid hcell hother
    cases hother.symm.trans (halike.cell _ _ hid hcell)
    exact ⟨rfl, rfl, rfl, rfl, halike.sourcesIn_eq (hclosed.inputs id cell hid hcell)⟩

end Sources

/-- The first input that admits the colour comes by the hop, and others are left after it. -/
inductive Leads (c : Circuit) (colour : Colour) : List WireId → Hop → List WireId → Prop
  | here {input others wire source target} (hwire : c.wire input = .ok wire)
      (hadmits : wire.colour.admits colour = true) (hsource : c.cell wire.source = .ok source) :
      Leads c colour (input :: others) ⟨source, target, wire⟩ others
  | past {input inputs others wire hop} (hwire : c.wire input = .ok wire)
      (hadmits : wire.colour.admits colour = false) (h : Leads c colour inputs hop others) :
      Leads c colour (input :: inputs) hop others

/-- Among cells that lead to each other there is such an input as long as there are sources. -/
theorem Closed.exists_leads {c : Circuit} {colour : Colour} {among : CellId → Prop}
    (hclosed : c.Closed colour among) {inputs : List WireId} {feeder : CellId} {feeders : List CellId}
    (hinputs : ∀ input ∈ inputs, c.DrawsOn colour among input)
    (hsources : c.sourcesIn colour inputs = feeder :: feeders) (target : Cell) :
    ∃ hop others, c.Leads colour inputs hop others ∧ hop.target = target ∧ hop.wire.timing = .now ∧
      c.cell feeder = .ok hop.source ∧ c.sourcesIn colour others = feeders ∧
      ∀ input ∈ others, c.DrawsOn colour among input := by
  induction inputs with
  | nil => cases hsources
  | cons input inputs ih =>
    have htail : ∀ w ∈ inputs, c.DrawsOn colour among w := fun w hw => hinputs w (List.mem_cons_of_mem _ hw)
    obtain ⟨wire, hwire, hback⟩ := hinputs input List.mem_cons_self
    cases hadmits : wire.colour.admits colour with
    | false =>
      rw [sourcesIn, List.filterMap_cons_none (sourceIn_of_not_admits hwire hadmits)] at hsources
      obtain ⟨hop, others, hleads, hrest⟩ := ih htail hsources
      exact ⟨hop, others, .past hwire hadmits hleads, hrest⟩
    | true =>
      obtain ⟨hsource, htiming⟩ := hback hadmits
      obtain ⟨source, hlive⟩ := hclosed.live _ hsource
      rw [sourcesIn, List.filterMap_cons_some (sourceIn_of_admits hwire hadmits), List.cons.injEq] at hsources
      obtain ⟨rfl, rfl⟩ := hsources
      exact ⟨⟨source, target, wire⟩, inputs, .here hwire hadmits hlive, rfl, htiming, hlive, rfl, htail⟩

end Circuit

namespace Evaluator

open Circuit

/-- An evaluator may go deeper than there are cells in a tick. -/
theorem length_keysIn_lt {e : Evaluator} {tick : Int} {frame : Frame}
    (hframe : e.timeline.frame? tick = some frame) (other : Int) (colour : Colour) :
    (frame.circuit.keysIn other colour).length < e.depthBound := by
  have hcells : (frame.circuit.keysIn other colour).length ≤ frame.circuit.size := by
    rw [keysIn, List.length_map, cells]
    refine Nat.le_trans (List.length_filterMap_le ..) ?_
    rw [Table.values, List.length_map]
    exact Nat.le_refl _
  have hwidth := Timeline.size_le_width hframe
  rw [depthBound]
  calc (frame.circuit.keysIn other colour).length
    _ < e.timeline.width + 2 := by omega
    _ ≤ _ := Nat.le_mul_of_pos_left _ (by omega)

/-! ## Tasks that stay -/

/-- The evaluator shows the circuit in the tick. -/
def Shows (e : Evaluator) (tick : Int) (c : Circuit) : Prop :=
  ∃ frame, e.timeline.frame? tick = some frame ∧ frame.circuit = c

/-- The task is about some of the cells, as the circuit has them, in the tick. -/
def Task.Within (c : Circuit) (tick : Int) (colour : Colour) (among : CellId → Prop) : Task → Prop
  | .ask offset id other => offset = tick ∧ other = colour ∧ among id
  | .compute offset id other => offset = tick ∧ other = colour ∧ among id
  | .fold d offset _ other inputs _ =>
    d = c ∧ offset = tick ∧ other = colour ∧ ∀ input ∈ inputs, c.DrawsOn colour among input
  | .look offset id other timing => offset = tick ∧ other = colour ∧ timing = .now ∧ among id

section Staying

variable {c : Circuit} {tick : Int} {colour : Colour} {among : CellId → Prop} {e e' : Evaluator}

theorem Shows.grows (h : e.Shows tick c) (hgrows : Grows e e') : e'.Shows tick c := by
  obtain ⟨frame, hframe, hcircuit⟩ := h
  exact ⟨frame, hgrows.frame _ _ hframe, hcircuit⟩

theorem Shows.circuit_eq (h : e.Shows tick c) {frame : Frame}
    (hframe : e.timeline.frame? tick = some frame) : frame.circuit = c := by
  obtain ⟨other, hother, hcircuit⟩ := h
  cases hframe.symm.trans hother
  exact hcircuit

namespace Task.Within

variable {d : Circuit} {frame : Frame} {offset : Int} {id : CellId} {other : Colour} {target source : Cell}
  {input : WireId} {inputs : List WireId} {peak : Peak} {wire : Wire}

theorem circuit_eq (h : (Task.compute offset id other).Within c tick colour among) (hshows : e.Shows tick c)
    (hframe : e.timeline.frame? offset = some frame) : frame.circuit = c :=
  hshows.circuit_eq (h.1 ▸ hframe)

/-- The cell that is asked about is live. -/
theorem cell_ne_error (h : (Task.compute offset id other).Within c tick colour among)
    (hclosed : c.Closed colour among) (hshows : e.Shows tick c)
    (hframe : e.timeline.frame? offset = some frame) {fault : Fault} :
    frame.circuit.cell id ≠ .error fault := by
  obtain ⟨cell, hcell⟩ := hclosed.live id h.2.2
  rw [h.circuit_eq hshows hframe, hcell]
  simp

theorem gather (h : (Task.compute offset id other).Within c tick colour among)
    (hclosed : c.Closed colour among) (hshows : e.Shows tick c) (hframe : e.timeline.frame? offset = some frame)
    (hcell : frame.circuit.cell id = .ok target) (peak : Peak) :
    (Task.fold frame.circuit offset target other target.inputs peak).Within c tick colour among := by
  have hcircuit := h.circuit_eq hshows hframe
  obtain ⟨hoffset, hother, hid⟩ := h
  exact ⟨hcircuit, hoffset, hother, hclosed.inputs id target hid (hcircuit ▸ hcell)⟩

theorem tail (h : (Task.fold d offset target other (input :: inputs) peak).Within c tick colour among)
    (next : Peak) : (Task.fold d offset target other inputs next).Within c tick colour among := by
  obtain ⟨hcircuit, hoffset, hother, hinputs⟩ := h
  exact ⟨hcircuit, hoffset, hother, fun w hw => hinputs w (List.mem_cons_of_mem _ hw)⟩

theorem wire_ne_error
    (h : (Task.fold d offset target other (input :: inputs) peak).Within c tick colour among)
    {fault : Fault} : d.wire input ≠ .error fault := by
  obtain ⟨rfl, -, -, hinputs⟩ := h
  obtain ⟨wire, hwire, -⟩ := hinputs input List.mem_cons_self
  rw [hwire]
  simp

theorem among_source
    (h : (Task.fold d offset target other (input :: inputs) peak).Within c tick colour among)
    (hwire : d.wire input = .ok wire) (hadmits : wire.colour.admits other = true) :
    among wire.source ∧ wire.timing = .now := by
  obtain ⟨rfl, -, rfl, hinputs⟩ := h
  obtain ⟨other, hother, hback⟩ := hinputs input List.mem_cons_self
  cases hwire.symm.trans hother
  exact hback hadmits

theorem source_ne_error
    (h : (Task.fold d offset target other (input :: inputs) peak).Within c tick colour among)
    (hclosed : c.Closed colour among) (hwire : d.wire input = .ok wire)
    (hadmits : wire.colour.admits other = true) {fault : Fault} : d.cell wire.source ≠ .error fault := by
  obtain ⟨source, hsource⟩ := hclosed.live _ (h.among_source hwire hadmits).1
  rw [h.1, hsource]
  simp

/-- The source of an input is looked at in the same tick. -/
theorem look (h : (Task.fold d offset target other (input :: inputs) peak).Within c tick colour among)
    (hclosed : c.Closed colour among) (hwire : d.wire input = .ok wire)
    (hadmits : wire.colour.admits other = true) (hsource : d.cell wire.source = .ok source) :
    (Task.look offset source.id other wire.timing.flip).Within c tick colour among := by
  obtain ⟨hamong, htiming⟩ := h.among_source hwire hadmits
  obtain ⟨rfl, hoffset, hother, -⟩ := h
  rw [← id_of_cell? hclosed.keyed (cell_ok_iff.mp hsource)] at hamong
  exact ⟨hoffset, hother, by rw [htiming]; rfl, hamong⟩

end Task.Within

/-- To look at a tick that is known and not closed is to ask in that tick. -/
theorem Walk.ask_of_look {fuel : Nat} {offset : Int} {id : CellId} {timing : Timing}
    {answer : Except Fault Peak} (h : Walk fuel (.look offset id colour timing) e answer e')
    (hshows : e.Shows (offset + timing.step) c) (hopen : offset + timing.step ∉ e.deadEnds) :
    Walk fuel (.ask (offset + timing.step) id colour) e answer e' := by
  obtain ⟨frame, hframe, -⟩ := hshows
  have hknown : e.timeline.frame? (offset + timing.step) ≠ none := by
    rw [hframe]
    simp
  cases h with
  | stay hask =>
    rw [Timing.step, Int.add_zero]
    exact hask
  | deadEnd _ hdead => exact absurd hdead hopen
  | known _ _ _ hask => exact hask
  | adrift _ _ hnew => exact absurd hnew hknown
  | unprojectable _ _ hnew => exact absurd hnew hknown
  | stale _ _ hnew => exact absurd hnew hknown
  | imagine _ _ hnew => exact absurd hnew hknown

/-! ## Answers -/

/-- Among cells that lead to each other a walk finds a peak, unless it had no more room than it was allowed to
go deep. -/
theorem Walk.answers_within {fuel : Nat} {task : Task} {answer : Except Fault Peak}
    (h : Walk fuel task e answer e') (hclosed : c.Closed colour among) (hshows : e.Shows tick c)
    (hwithin : task.Within c tick colour among) :
    (∃ peak, answer = .ok peak) ∨
      ((∃ id, answer = .error (.endless id)) ∧ fuel ≤ room (c.keysIn tick colour) e) := by
  induction h with
  | cut => exact Or.inr ⟨⟨_, rfl⟩, Nat.zero_le _⟩
  | descend hnew _ ih =>
    refine (ih hshows hwithin).imp_right fun ⟨hendless, hroom⟩ => ⟨hendless, ?_⟩
    obtain ⟨rfl, rfl, hid⟩ := hwithin
    obtain ⟨cell, hcell⟩ := hclosed.live _ hid
    exact Nat.lt_of_le_of_lt hroom (room_enter (mem_keysIn hclosed.keyed _ _ hcell) hnew)
  | lost hframe hcell _ => exact absurd hcell (hwithin.cell_ne_error hclosed hshows hframe)
  | gather hframe hcell _ _ ih => exact ih hshows (hwithin.gather hclosed hshows hframe hcell _)
  | wireless hwire => exact absurd hwire hwithin.wire_ne_error
  | skip _ _ _ ih => exact ih hshows (hwithin.tail _)
  | sourceless hwire hadmits hsource =>
    exact absurd hsource (hwithin.source_ne_error hclosed hwire hadmits)
  | broken hwire hadmits hsource _ ih =>
    refine (ih hshows (hwithin.look hclosed hwire hadmits hsource)).imp ?_ ?_
    · rintro ⟨peak, hpeak⟩
      cases hpeak
    · rintro ⟨⟨id, hendless⟩, hroom⟩
      cases hendless
      exact ⟨⟨id, rfl⟩, hroom⟩
  | proceed hwire hadmits hsource hlook _ _ _ ihrest =>
    -- the look gave back all the room it took
    have hrest := ihrest (hshows.grows hlook.grows) (hwithin.tail _)
    rw [hlook.restored.room_eq] at hrest
    exact hrest
  | stay _ ih => exact ih hshows ⟨hwithin.1, hwithin.2.1, hwithin.2.2.2⟩
  | known htiming => exact absurd hwithin.2.2.1 htiming
  | unprojectable htiming => exact absurd hwithin.2.2.1 htiming
  | imagine htiming => exact absurd hwithin.2.2.1 htiming
  | reuse | again | frameless | absent | stored | done | settle | deadEnd | adrift | stale =>
    exact Or.inl ⟨_, rfl⟩

/-- An evaluator may go deep enough to answer any question about them. -/
theorem exists_ask (hclosed : c.Closed colour among) (hshows : e.Shows tick c) {id : CellId} (hid : among id) :
    ∃ peak f, Walk e.depthBound (.ask tick id colour) e (.ok peak) f := by
  have hwalk : Walk e.depthBound (.ask tick id colour) e _ _ := isWalk_peakNow e.depthBound tick id colour e
  rcases hwalk.answers_within hclosed hshows ⟨rfl, rfl, hid⟩ with ⟨peak, hpeak⟩ | ⟨-, hroom⟩
  · rw [hpeak] at hwalk
    exact ⟨peak, _, hwalk⟩
  · -- there is more depth than there are cells to compute
    obtain ⟨frame, hframe, rfl⟩ := hshows
    have hlength := length_keysIn_lt hframe tick colour
    have hcount : room (frame.circuit.keysIn tick colour) e ≤ _ := List.countP_le_length
    omega

/-- What it answers is what any walk finds, however deep that one goes. -/
theorem Walk.ask_eq {id : CellId} {answer : Except Fault Peak} {f : Evaluator}
    (h : Walk e.depthBound (.ask tick id colour) e answer f) (hclosed : c.Closed colour among)
    (hshows : e.Shows tick c) (hid : among id) {fuel : Nat} {peak : Peak} {g : Evaluator}
    (h' : Walk fuel (.ask tick id colour) e (.ok peak) g) : answer = .ok peak := by
  obtain ⟨found, f', hfound⟩ := exists_ask hclosed hshows hid
  have hdeep := h'.mono (by simp) (Nat.le_max_left fuel e.depthBound)
  have hdeep' := hfound.mono (by simp) (Nat.le_max_right fuel e.depthBound)
  rw [(h.unique hfound).1, (hdeep.unique hdeep').1]

end Staying

/-! ## The next source -/

section Leading

variable {c : Circuit} {colour : Colour} {inputs others : List WireId} {hop : Hop} {fuel : Nat} {offset : Int}
  {peak next : Peak} {e e' e'' : Evaluator} {answer : Except Fault Peak}

theorem Walk.broken_by (h : c.Leads colour inputs hop others) {fault : Fault}
    (hlook : Walk fuel (.look offset hop.source.id colour hop.wire.timing.flip) e (.error fault) e') :
    Walk fuel (.fold c offset hop.target colour inputs peak) e (.error fault) e' := by
  induction h with
  | here hwire hadmits hsource => exact .broken hwire hadmits hsource hlook
  | past hwire hadmits _ ih => exact .skip hwire hadmits (ih hlook)

theorem Walk.settle_by (h : c.Leads colour inputs hop others)
    (hlook : Walk fuel (.look offset hop.source.id colour hop.wire.timing.flip) e (.ok next) e')
    (hfinal : (peak.fold next hop).isFinal = true) :
    Walk fuel (.fold c offset hop.target colour inputs peak) e (.ok (peak.fold next hop)) e' := by
  induction h with
  | here hwire hadmits hsource => exact .settle hwire hadmits hsource hlook hfinal
  | past hwire hadmits _ ih => exact .skip hwire hadmits (ih hlook hfinal)

theorem Walk.proceed_by (h : c.Leads colour inputs hop others)
    (hlook : Walk fuel (.look offset hop.source.id colour hop.wire.timing.flip) e (.ok next) e')
    (hfinal : (peak.fold next hop).isFinal = false)
    (hrest : Walk fuel (.fold c offset hop.target colour others (peak.fold next hop)) e' answer e'') :
    Walk fuel (.fold c offset hop.target colour inputs peak) e answer e'' := by
  induction h with
  | here hwire hadmits hsource => exact .proceed hwire hadmits hsource hlook hfinal hrest
  | past hwire hadmits _ ih => exact .skip hwire hadmits (ih hlook hfinal hrest)

/-- Where no input admits the colour nothing is added. -/
theorem Walk.done_of_sourceless {among : CellId → Prop} (target : Cell)
    (hinputs : ∀ input ∈ inputs, c.DrawsOn colour among input) (hsources : c.sourcesIn colour inputs = []) :
    Walk fuel (.fold c offset target colour inputs peak) e (.ok peak) e := by
  induction inputs with
  | nil => exact .done
  | cons input inputs ih =>
    obtain ⟨wire, hwire, -⟩ := hinputs input List.mem_cons_self
    cases hadmits : wire.colour.admits colour with
    | false =>
      rw [sourcesIn, List.filterMap_cons_none (sourceIn_of_not_admits hwire hadmits)] at hsources
      exact .skip hwire hadmits (ih (fun w hw => hinputs w (List.mem_cons_of_mem _ hw)) hsources)
    | true =>
      rw [sourcesIn, List.filterMap_cons_some (sourceIn_of_admits hwire hadmits)] at hsources
      cases hsources

end Leading

/-! ## The same walk elsewhere -/

/-- Two evaluators that have come equally far with some cells, one of them in one tick and the other in another
one. -/
structure Abreast (c d : Circuit) (tick tick' : Int) (colour : Colour) (among : CellId → Prop)
    (e e' : Evaluator) : Prop where
  shows : e.Shows tick c
  shows' : e'.Shows tick' d
  depth : e'.depth = e.depth
  reentered : e'.reentered = e.reentered
  memo : ∀ id, among id → e'.memo.get? ⟨tick', id, colour⟩ = e.memo.get? ⟨tick, id, colour⟩

namespace Abreast

variable {c d : Circuit} {tick tick' : Int} {colour : Colour} {among : CellId → Prop} {e e' : Evaluator}

theorem recalling (h : Abreast c d tick tick' colour among e e') :
    Abreast c d tick tick' colour among e.recalling e'.recalling :=
  ⟨h.shows, h.shows', h.depth, h.reentered, h.memo⟩

theorem counting (h : Abreast c d tick tick' colour among e e') :
    Abreast c d tick tick' colour among e.counting e'.counting :=
  ⟨h.shows, h.shows', h.depth, h.reentered, h.memo⟩

theorem reentering (h : Abreast c d tick tick' colour among e e') (depth : Nat) :
    Abreast c d tick tick' colour among (e.reentering depth) (e'.reentering depth) where
  shows := h.shows
  shows' := h.shows'
  depth := h.depth
  reentered := by rw [Evaluator.reentering, Evaluator.reentering, h.reentered]
  memo := h.memo

theorem enter (h : Abreast c d tick tick' colour among e e') (id : CellId) :
    Abreast c d tick tick' colour among (e.enter ⟨tick, id, colour⟩) (e'.enter ⟨tick', id, colour⟩) where
  shows := h.shows
  shows' := h.shows'
  depth := by rw [Evaluator.enter, Evaluator.enter, h.depth]
  reentered := rfl
  memo other hother := by
    rw [get?_enter, get?_enter, h.memo other hother, h.depth]
    simp only [MemoKey.mk.injEq, true_and, and_true]

/-- What is left behind of a computation is the same if it came to the same end in both. -/
theorem leave (h : Abreast c d tick tick' colour among e e') (id : CellId) (depth : Nat) (outer : Option Nat)
    (peak : Option Peak) :
    Abreast c d tick tick' colour among (e.leave ⟨tick, id, colour⟩ depth outer peak)
      (e'.leave ⟨tick', id, colour⟩ depth outer peak) where
  shows := h.shows
  shows' := h.shows'
  depth := congrArg (· - 1) h.depth
  reentered := congrArg (fun reentered => outermost outer (taint depth reentered)) h.reentered
  memo other hother := by
    simp only [get?_leave, h.memo other hother, h.reentered, MemoKey.mk.injEq, true_and, and_true]

end Abreast

/-- A task in one circuit, and what it comes to in a tick of another one. -/
inductive Task.Moved (c d : Circuit) (tick : Int) (colour : Colour) (among : CellId → Prop) :
    Task → Task → Prop
  | ask {offset id other} : Moved c d tick colour among (.ask offset id other) (.ask tick id other)
  | compute {offset id other} : Moved c d tick colour among (.compute offset id other) (.compute tick id other)
  | fold {offset target target' inputs inputs' peak} (hid : target'.id = target.id)
      (htarget : c.ActsAs d colour target target')
      (hinputs : ∀ input ∈ inputs', d.DrawsOn colour among input)
      (hsources : d.sourcesIn colour inputs' = c.sourcesIn colour inputs) :
      Moved c d tick colour among (.fold c offset target colour inputs peak)
        (.fold d tick target' colour inputs' peak)
  | look {offset id other timing} :
    Moved c d tick colour among (.look offset id other timing) (.look tick id other timing)

namespace Task.Moved

variable {c d here : Circuit} {tick tick' offset : Int} {colour other : Colour} {among : CellId → Prop}
  {target source : Cell} {input : WireId} {inputs : List WireId} {peak : Peak} {wire : Wire} {task : Task}

/-- An input that does not admit the colour has no like in the other circuit. -/
theorem skip (h : Moved c d tick' colour among (.fold here offset target other (input :: inputs) peak) task)
    (hwire : here.wire input = .ok wire) (hadmits : wire.colour.admits other = false) :
    Moved c d tick' colour among (.fold here offset target other inputs peak) task := by
  cases h with
  | fold hid htarget hinputs hsources =>
    have hnone := sourceIn_of_not_admits hwire hadmits
    exact .fold hid htarget hinputs (hsources.trans (List.filterMap_cons_none hnone))

/-- An input that admits the colour has one that comes next in the other circuit. -/
theorem meet (halike : ActAlike c d colour among)
    (hwithin : (Task.fold here offset target other (input :: inputs) peak).Within c tick colour among)
    (h : Moved c d tick' colour among (.fold here offset target other (input :: inputs) peak) task)
    (hwire : here.wire input = .ok wire) (hadmits : wire.colour.admits other = true)
    (hsource : here.cell wire.source = .ok source) :
    ∃ hop inputs' others, task = .fold d tick' hop.target other inputs' peak ∧
      d.Leads other inputs' hop others ∧ hop.source.id = source.id ∧ hop.wire.timing = wire.timing ∧
      (∀ next, peak.fold next hop = peak.fold next ⟨source, target, wire⟩) ∧
      ∀ next, Moved c d tick' colour among (.fold here offset target other inputs next)
        (.fold d tick' hop.target other others next) := by
  cases h with
  | @fold _ _ target' _ inputs' _ hid htarget hinputs hsources =>
    have hfirst := sourceIn_of_admits hwire hadmits
    obtain ⟨hfeeder, htiming⟩ := hwithin.among_source hwire hadmits
    obtain ⟨hop, others, hleads, rfl, hnow, hlive, hrest, hothers⟩ :=
      halike.closed'.exists_leads hinputs (hsources.trans (List.filterMap_cons_some hfirst)) target'
    have hacts := halike.acts _ _ _ hfeeder hsource hlive
    refine ⟨hop, inputs', others, rfl, hleads, ?_, hnow.trans htiming.symm, fun next => ?_, fun next => ?_⟩
    · rw [id_of_cell? halike.closed.keyed (cell_ok_iff.mp hsource),
        id_of_cell? halike.closed'.keyed (cell_ok_iff.mp hlive)]
    · exact Peak.fold_congr hacts.kind hid htarget.kind htarget.position
        (by rw [Cell.hasTag, Cell.hasTag, htarget.tags]) peak next
    · exact .fold hid htarget hothers hrest

end Task.Moved

/-- A walk among cells that lead to each other can be taken in any tick of a circuit that acts alike, by an
evaluator that has come equally far there. -/
theorem Walk.moved {c d : Circuit} {tick tick' : Int} {colour : Colour} {among : CellId → Prop}
    (halike : ActAlike c d colour among) {fuel : Nat} {task task' : Task}
    {e f e' : Evaluator} {answer : Except Fault Peak} (h : Walk fuel task e answer f)
    (habreast : Abreast c d tick tick' colour among e e') (hwithin : task.Within c tick colour among)
    (hmoved : Task.Moved c d tick' colour among task task') :
    ∃ f', Walk fuel task' e' answer f' ∧ Abreast c d tick tick' colour among f f' := by
  have hclosed := halike.closed
  induction h generalizing e' task' with
  | cut =>
    cases hmoved
    exact ⟨e', .cut, habreast⟩
  | reuse hdone =>
    cases hmoved
    obtain ⟨rfl, rfl, hid⟩ := hwithin
    rw [← habreast.memo _ hid] at hdone
    exact ⟨_, .reuse hdone, habreast.recalling⟩
  | again hpending =>
    cases hmoved
    obtain ⟨rfl, rfl, hid⟩ := hwithin
    rw [← habreast.memo _ hid] at hpending
    exact ⟨_, .again hpending, habreast.reentering _⟩
  | descend hnew _ ih =>
    cases hmoved
    obtain ⟨rfl, rfl, hid⟩ := hwithin
    obtain ⟨f', hbody, hend⟩ := ih (habreast.enter _) ⟨rfl, rfl, hid⟩ .compute
    rw [← habreast.memo _ hid] at hnew
    rw [← habreast.depth, ← habreast.reentered]
    exact ⟨_, .descend hnew hbody, hend.leave _ _ _ _⟩
  | frameless hframe =>
    obtain ⟨frame, hshown, -⟩ := habreast.shows
    rw [hwithin.1, hshown] at hframe
    cases hframe
  | absent hframe hcell _ => exact absurd hcell (hwithin.cell_ne_error hclosed habreast.shows hframe)
  | lost hframe hcell _ => exact absurd hcell (hwithin.cell_ne_error hclosed habreast.shows hframe)
  | stored hframe hcell hfinal =>
    cases hmoved
    rw [hwithin.circuit_eq habreast.shows hframe] at hcell
    obtain ⟨frame', hframe', rfl⟩ := habreast.shows'
    obtain ⟨rfl, rfl, hid⟩ := hwithin
    obtain ⟨other, hother⟩ := halike.closed'.live _ hid
    rw [← (halike.acts _ _ _ hid hcell hother).fire] at hfinal ⊢
    exact ⟨_, .stored hframe' hother hfinal, habreast.counting⟩
  | gather hframe hcell hfinal _ ih =>
    cases hmoved
    have hfold := hwithin.gather hclosed habreast.shows hframe hcell
    obtain rfl := hwithin.circuit_eq habreast.shows hframe
    obtain ⟨frame', hframe', rfl⟩ := habreast.shows'
    obtain ⟨rfl, rfl, hid⟩ := hwithin
    obtain ⟨other, hother⟩ := halike.closed'.live _ hid
    have hacts := halike.acts _ _ _ hid hcell hother
    have hsame : other.id = _ := (id_of_cell? halike.closed'.keyed (cell_ok_iff.mp hother)).trans
      (id_of_cell? hclosed.keyed (cell_ok_iff.mp hcell)).symm
    obtain ⟨f', hfolded, hend⟩ := ih habreast.counting (hfold _)
      (.fold hsame hacts (halike.closed'.inputs _ _ hid hother) hacts.sources)
    rw [← hacts.fire] at hfinal hfolded
    exact ⟨f', .gather hframe' hother hfinal hfolded, hend⟩
  | done =>
    cases hmoved with
    | fold _ _ hinputs hsources => exact ⟨e', .done_of_sourceless _ hinputs hsources, habreast⟩
  | wireless hwire => exact absurd hwire hwithin.wire_ne_error
  | skip hwire hadmits _ ih => exact ih habreast (hwithin.tail _) (hmoved.skip hwire hadmits)
  | sourceless hwire hadmits hsource =>
    exact absurd hsource (hwithin.source_ne_error hclosed hwire hadmits)
  | broken hwire hadmits hsource _ ih =>
    obtain ⟨hop, inputs', others, rfl, hleads, hfeeder, htiming, -, -⟩ :=
      hmoved.meet halike hwithin hwire hadmits hsource
    obtain ⟨f', hlook, hend⟩ := ih habreast (hwithin.look hclosed hwire hadmits hsource) .look
    rw [← hfeeder, ← htiming] at hlook
    exact ⟨f', .broken_by hleads hlook, hend⟩
  | settle hwire hadmits hsource _ hfinal ih =>
    obtain ⟨hop, inputs', others, rfl, hleads, hfeeder, htiming, hfolded, -⟩ :=
      hmoved.meet halike hwithin hwire hadmits hsource
    obtain ⟨f', hlook, hend⟩ := ih habreast (hwithin.look hclosed hwire hadmits hsource) .look
    rw [← hfeeder, ← htiming] at hlook
    rw [← hfolded] at hfinal ⊢
    exact ⟨f', .settle_by hleads hlook hfinal, hend⟩
  | proceed hwire hadmits hsource _ hfinal _ ihlook ihrest =>
    obtain ⟨hop, inputs', others, rfl, hleads, hfeeder, htiming, hfolded, htail⟩ :=
      hmoved.meet halike hwithin hwire hadmits hsource
    obtain ⟨g', hlook, hmid⟩ := ihlook habreast (hwithin.look hclosed hwire hadmits hsource) .look
    obtain ⟨f', hrest, hend⟩ := ihrest hmid (hwithin.tail _) (htail _)
    rw [← hfeeder, ← htiming] at hlook
    rw [← hfolded] at hfinal hrest
    exact ⟨f', .proceed_by hleads hlook hfinal hrest, hend⟩
  | stay _ ih =>
    cases hmoved
    obtain ⟨f', hask, hend⟩ := ih habreast ⟨hwithin.1, hwithin.2.1, hwithin.2.2.2⟩ .ask
    exact ⟨f', .stay hask, hend⟩
  | deadEnd htiming | known htiming | adrift htiming | unprojectable htiming | stale htiming
  | imagine htiming => exact absurd hwithin.2.2.1 htiming

end Evaluator

end PulseCircuit
