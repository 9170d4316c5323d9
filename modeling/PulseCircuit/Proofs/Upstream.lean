import PulseCircuit.Proofs.RawFiring

/-!
# Only what is upstream matters

Upstream of a cell are all cells from which wires that admit the colour lead to it. Where none of these wires
leaves the present, a question about the cell is answered by what is upstream: the looks of those cells, the pulses
of the colour they store, and which of them feed which in which order. Two circuits may differ in all else, and a
loop upstream makes no difference.

* `Upstream`, `SameUpstream`: the cells that matter, and what is compared of them;
* `SameUpstream.actAlike`: two circuits with the same upstream act alike there;
* `Reachable.peaks_from_upstream`: they give the same answer.
-/

namespace PulseCircuit

open Circuit Evaluator

namespace Circuit

/-- The cell itself, or one from which a way of wires that admit the colour leads to it. -/
def Upstream (c : Circuit) (colour : Colour) (id x : CellId) : Prop :=
  Relation.ReflTransGen (c.Feeds colour) x id

/-- The wires that admit the colour and lead upstream of a cell stay in their tick. -/
def LevelUpstream (c : Circuit) (colour : Colour) (id : CellId) : Prop :=
  ∀ w wire, c.wire w = .ok wire → wire.colour.admits colour = true → c.Upstream colour id wire.target →
    wire.timing = .now

/-- Two circuits have the same upstream of a cell. -/
structure SameUpstream (c d : Circuit) (colour : Colour) (id : CellId) : Prop where
  upstream : ∀ x, c.Upstream colour id x ↔ d.Upstream colour id x
  level : c.LevelUpstream colour id
  level' : d.LevelUpstream colour id
  acts : ∀ x cell other, c.Upstream colour id x → c.cell x = .ok cell → d.cell x = .ok other →
    c.ActsAs d colour cell other

variable {c d : Circuit} {colour : Colour} {id : CellId}

theorem Linked.closed_upstream (h : c.Linked) (hlevel : c.LevelUpstream colour id)
    (hlive : ∃ cell, c.cell id = .ok cell) : c.Closed colour (c.Upstream colour id) := by
  refine h.closed (fun x hx => ?_) fun w wire hwire hadmits htarget => ?_
  · rcases Relation.ReflTransGen.cases_head hx with rfl | ⟨y, ⟨w, wire, hwire, -, rfl, -⟩, -⟩
    · exact hlive
    · exact h.toWellLinked.source_live _ _ hwire
  · exact ⟨.head ⟨w, wire, hwire, hadmits, rfl, rfl⟩ htarget, hlevel w wire hwire hadmits htarget⟩

theorem SameUpstream.actAlike (h : c.SameUpstream d colour id) (hc : c.Linked) (hd : d.Linked)
    (hlive : ∃ cell, c.cell id = .ok cell) (hlive' : ∃ cell, d.cell id = .ok cell) :
    c.ActAlike d colour (c.Upstream colour id) where
  closed := hc.closed_upstream h.level hlive
  closed' := by
    have hclosed := hd.closed_upstream h.level' hlive'
    rwa [← funext fun x => propext (h.upstream x)] at hclosed
  acts := h.acts

/-- The upstream of a cell is a list of cells that lead to it and that no other cell feeds. -/
theorem upstream_iff_mem {cells : List CellId}
    (hback : ∀ wire ∈ c.wires, wire.colour.admits colour = true → wire.target ∈ cells →
      wire.source ∈ cells ∧ wire.timing = .now)
    (hid : id ∈ cells) (hways : ∀ x ∈ cells, c.Upstream colour id x) (x : CellId) :
    c.Upstream colour id x ↔ x ∈ cells := by
  refine ⟨fun hx => ?_, hways x⟩
  induction hx using Relation.ReflTransGen.head_induction_on with
  | refl => exact hid
  | head hfeeds _ ih =>
    obtain ⟨w, wire, hwire, hadmits, rfl, rfl⟩ := hfeeds
    exact (hback wire (mem_wires_iff_exists.mpr ⟨w, wire_ok_iff.mp hwire⟩) hadmits ih).1

theorem levelUpstream_of_mem {cells : List CellId}
    (hback : ∀ wire ∈ c.wires, wire.colour.admits colour = true → wire.target ∈ cells →
      wire.source ∈ cells ∧ wire.timing = .now)
    (hcells : ∀ x, c.Upstream colour id x ↔ x ∈ cells) : c.LevelUpstream colour id := by
  intro w wire hwire hadmits htarget
  exact (hback wire (mem_wires_iff_exists.mpr ⟨w, wire_ok_iff.mp hwire⟩) hadmits ((hcells _).mp htarget)).2

/-- A question about the present of a live cell is asked in the present. -/
theorem ask_of_getPeak {cell : Cell} (hcell : c.cell id = .ok cell) (colour : Colour) (validate : Bool)
    (past future : List Circuit) :
    ∃ f, Walk (ofHistory validate c past future).depthBound (.ask 0 id colour)
      (ofHistory validate c past future) (c.getPeak validate id colour .now past future) f := by
  have hpresent := History.present_frame ⟨validate, c, past, future⟩
  have hwalk := walk_of_live ⟨id, colour, .now⟩ hpresent hcell
  exact ⟨_, hwalk.ask_of_look ⟨_, hpresent, rfl⟩ List.not_mem_nil⟩

end Circuit

/-- Where no wire that admits the colour leaves the present upstream of a cell, the cell has the same peak in any
two circuits with the same upstream. -/
theorem Circuit.Reachable.peaks_from_upstream {c d : Circuit} (hc : c.Reachable) (hd : d.Reachable)
    {colour : Colour} {id : CellId} {cell other : Cell} (hcell : c.cell id = .ok cell)
    (hother : d.cell id = .ok other) (hsame : c.SameUpstream d colour id) (validate validate' : Bool)
    (past future past' future' : List Circuit) :
    ∃ peak, c.getPeak validate id colour .now past future = .ok peak ∧
      d.getPeak validate' id colour .now past' future' = .ok peak := by
  have halike := hsame.actAlike hc.sound.linked hd.sound.linked ⟨cell, hcell⟩ ⟨other, hother⟩
  let e := ofHistory validate c past future
  let e' := ofHistory validate' d past' future'
  have hshows : e.Shows 0 c := ⟨_, History.present_frame ⟨validate, c, past, future⟩, rfl⟩
  have hshows' : e'.Shows 0 d := ⟨_, History.present_frame ⟨validate', d, past', future'⟩, rfl⟩
  -- nothing is pending or remembered at first, so the two evaluators are abreast
  have habreast : Abreast c d 0 0 colour (c.Upstream colour id) e e' :=
    ⟨hshows, hshows', rfl, rfl, fun _ _ => rfl⟩
  obtain ⟨peak, f, hwalk⟩ := exists_ask halike.closed hshows .refl
  obtain ⟨f', hmoved, -⟩ := hwalk.moved halike habreast ⟨rfl, rfl, .refl⟩ .ask
  obtain ⟨g, hask⟩ := ask_of_getPeak hcell colour validate past future
  obtain ⟨g', hask'⟩ := ask_of_getPeak hother colour validate' past' future'
  exact ⟨peak, hask.ask_eq halike.closed hshows .refl hwalk, hask'.ask_eq halike.closed' hshows' .refl hmoved⟩

/-- A creation cell and a relay in a red loop, which ends in a slot. A blue wire leads to the slot from the past. -/
def tapped : Circuit :=
  Circuit.initial.performAll true
    [.createCell .root .creation .origin, .createCell .root .relay .origin, .createCell .root .slot .origin,
      .createCell ⟨3⟩ .relay .origin, .createWire ⟨1⟩ ⟨2⟩ (.only .red) .now, .createWire ⟨2⟩ ⟨1⟩ .any .now,
      .createWire ⟨2⟩ ⟨3⟩ (.only .red) .now, .createWire ⟨4⟩ ⟨3⟩ (.only .blue) .past, .fireCell ⟨1⟩ .red]

/-- The same loop and slot, one below the other and connected by other wires. The relay stores a blue pulse, a blue
wire ends in the slot too, and the slot leads to the root. -/
def retapped : Circuit :=
  Circuit.initial.performAll true
    [.createCell .root .creation .origin, .createCell ⟨1⟩ .relay .origin, .createCell ⟨2⟩ .slot .origin,
      .createWire ⟨3⟩ ⟨0⟩ .any .future, .createWire ⟨1⟩ ⟨3⟩ (.only .blue) .now, .createWire ⟨2⟩ ⟨3⟩ .any .now,
      .createWire ⟨2⟩ ⟨1⟩ (.only .red) .now, .createWire ⟨1⟩ ⟨2⟩ .any .now, .fireCell ⟨1⟩ .red,
      .fireCell ⟨2⟩ .blue]

theorem sameUpstream_tapped : tapped.SameUpstream retapped .red ⟨3⟩ := by
  have hback : ∀ wire ∈ tapped.wires, wire.colour.admits .red = true →
      wire.target ∈ ([⟨1⟩, ⟨2⟩, ⟨3⟩] : List CellId) →
      wire.source ∈ ([⟨1⟩, ⟨2⟩, ⟨3⟩] : List CellId) ∧ wire.timing = .now := by
    decide +kernel
  have hback' : ∀ wire ∈ retapped.wires, wire.colour.admits .red = true →
      wire.target ∈ ([⟨1⟩, ⟨2⟩, ⟨3⟩] : List CellId) →
      wire.source ∈ ([⟨1⟩, ⟨2⟩, ⟨3⟩] : List CellId) ∧ wire.timing = .now := by
    decide +kernel
  have hloop : tapped.Feeds .red ⟨1⟩ ⟨2⟩ := ⟨⟨-1⟩, _, rfl, rfl, rfl, rfl⟩
  have hloop' : retapped.Feeds .red ⟨1⟩ ⟨2⟩ := ⟨⟨-5⟩, _, rfl, rfl, rfl, rfl⟩
  have hway : tapped.Upstream .red ⟨3⟩ ⟨2⟩ := .single ⟨⟨-3⟩, _, rfl, rfl, rfl, rfl⟩
  have hway' : retapped.Upstream .red ⟨3⟩ ⟨2⟩ := .single ⟨⟨-3⟩, _, rfl, rfl, rfl, rfl⟩
  have hcells : ∀ x, tapped.Upstream .red ⟨3⟩ x ↔ x ∈ ([⟨1⟩, ⟨2⟩, ⟨3⟩] : List CellId) := by
    refine upstream_iff_mem hback (by decide) ?_
    simp only [List.mem_cons, List.not_mem_nil, or_false, forall_eq_or_imp, forall_eq]
    exact ⟨.head hloop hway, hway, .refl⟩
  have hcells' : ∀ x, retapped.Upstream .red ⟨3⟩ x ↔ x ∈ ([⟨1⟩, ⟨2⟩, ⟨3⟩] : List CellId) := by
    refine upstream_iff_mem hback' (by decide) ?_
    simp only [List.mem_cons, List.not_mem_nil, or_false, forall_eq_or_imp, forall_eq]
    exact ⟨.head hloop' hway', hway', .refl⟩
  refine ⟨fun x => (hcells x).trans (hcells' x).symm, levelUpstream_of_mem hback hcells,
    levelUpstream_of_mem hback' hcells', fun x cell other hx hcell hother => ?_⟩
  have hmem := (hcells x).mp hx
  simp only [List.mem_cons, List.not_mem_nil, or_false] at hmem
  rcases hmem with rfl | rfl | rfl
  all_goals
    cases hcell
    cases hother
    exact ⟨rfl, rfl, rfl, rfl, rfl⟩

/-- The slot has the same peak in both. -/
theorem peaks_from_upstream_tapped :
    tapped.SameUpstream retapped .red ⟨3⟩ ∧
      ∃ peak, tapped.getPeak true ⟨3⟩ .red .now [] [.initial] = .ok peak ∧
        retapped.getPeak false ⟨3⟩ .red .now [tapped] [] = .ok peak := by
  have htapped : tapped.Reachable := .performAll .initial true _
  have hretapped : retapped.Reachable := .performAll .initial true _
  exact ⟨sameUpstream_tapped,
    htapped.peaks_from_upstream hretapped rfl rfl sameUpstream_tapped true false [] [.initial] [tapped] []⟩

end PulseCircuit
