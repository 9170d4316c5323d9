import PulseCircuit.Proofs.QueryOrder

/-!
# Raw firing is reachability

Where only raw pulses move in a colour, a cell fires exactly if wires that admit the colour lead to it from a
cell that stores a pulse. Loops make no difference, nor does anything that was asked before.

* `Feeds`, `Reached`: one wire, and a way along wires from a stored pulse;
* `Plain.carries_iff_reached`: a raw pulse gets to a cell exactly along such a way;
* `Reachable.raw_firing`: what is answered to any query about the present.
-/

namespace PulseCircuit

open Circuit Evaluator

namespace Circuit

/-- A wire that admits the colour leads from the first cell to the second. -/
def Feeds (c : Circuit) (colour : Colour) (source target : CellId) : Prop :=
  ∃ id wire, c.wire id = .ok wire ∧ wire.colour.admits colour = true ∧ wire.source = source ∧
    wire.target = target

/-- Wires that admit the colour lead to the cell from one that stores a pulse, which may be the cell itself. -/
def Reached (c : Circuit) (colour : Colour) (id : CellId) : Prop :=
  ∃ origin cell, c.cell origin = .ok cell ∧ (cell.fire.get colour).isSome = true ∧
    Relation.ReflTransGen (c.Feeds colour) origin id

end Circuit

namespace History

variable {h : History} {sides : Timing → Bool} {colour : Colour}

/-- A raw pulse that gets to the source of an input gets to the target. -/
theorem carries_fold_of_mem {T : Int → Prospect} {avoid : MemoKey → Prop} {c : Circuit} {offset : Int}
    {target source : Cell} {input : WireId} {wire : Wire} (hwire : c.wire input = .ok wire)
    (hadmits : wire.colour.admits colour = true) (hsource : c.cell wire.source = .ok source)
    (hlook : Carries T avoid (.look offset source.id colour wire.timing.flip)) {inputs : List WireId}
    (hmem : input ∈ inputs) (peak : Peak) : Carries T avoid (.fold c offset target colour inputs peak) := by
  induction inputs with
  | nil => cases hmem
  | cons other inputs ih =>
    rcases List.mem_cons.mp hmem with rfl | hmem
    · exact .head hwire hadmits hsource hlook
    · exact .tail (ih hmem)

namespace Plain

/-- A pulse that is stored gets along any way. -/
theorem carries_of_reached (hplain : Plain h.present colour) {id : CellId}
    (hreached : h.present.Reached colour id) : Carries (h.chart sides) anywhere (.ask 0 id colour) := by
  obtain ⟨origin, lit, hlit, hstored, hway⟩ := hreached
  induction hway with
  | refl =>
    rcases hplain.pulse _ _ hlit with hnone | hraw
    · rw [hnone] at hstored
      cases hstored
    · refine .ask (fun hkey => hkey) (.gather rfl hlit ?_)
      rw [hraw]
      exact .here
  | tail _ hfeeds ih =>
    obtain ⟨w, wire, hwire, hadmits, rfl, rfl⟩ := hfeeds
    have hlinks := hplain.linked.toWellLinked
    obtain ⟨source, hsource⟩ := hlinks.source_live _ _ hwire
    obtain ⟨target, htarget⟩ := hlinks.target_live _ _ hwire
    have hinput : w ∈ target.inputs := (hlinks.mem_inputs_iff _ _ _ htarget).mpr ⟨wire, hwire, rfl⟩
    have hlook : Carries (h.chart sides) anywhere (.look 0 source.id colour wire.timing.flip) := by
      rw [hplain.timing _ _ hwire hadmits, id_of_cell? hplain.linked.keyed (cell_ok_iff.mp hsource)]
      exact .look rfl ih
    exact .ask (fun hkey => hkey) (.gather rfl htarget
      (carries_fold_of_mem hwire hadmits hsource hlook hinput _))

end Plain

/-- What it takes for a raw pulse to get to a task in the present. -/
def Task.Fed (c : Circuit) (colour : Colour) : Task → Prop
  | .ask offset id other => offset = 0 → other = colour → c.Reached colour id
  | .compute offset id other => offset = 0 → other = colour → c.Reached colour id
  | .fold d offset _ other inputs peak => d = c → offset = 0 → other = colour → peak = .raw ∨
    ∃ input ∈ inputs, ∃ wire, c.wire input = .ok wire ∧ wire.colour.admits colour = true ∧
      c.Reached colour wire.source
  | .look offset id other timing => offset + timing.step = 0 → other = colour → c.Reached colour id

theorem isSome_of_ofPulse?_eq_raw {held : Option Pulse} (h : Peak.ofPulse? held [] = .raw) :
    held.isSome = true := by
  cases held with
  | none => cases h
  | some pulse => rfl

/-- A raw pulse that gets to a task in the present has come along a way from a stored one. -/
theorem Plain.fed (hplain : Plain h.present colour) {avoid : MemoKey → Prop} {task : Task}
    (hcarries : Carries (h.chart sides) avoid task) : Task.Fed h.present colour task := by
  induction hcarries with
  | ask _ _ ih => exact ih
  | gather hsight hcell _ ih =>
    rintro rfl rfl
    cases hsight
    rcases ih rfl rfl rfl with hraw | ⟨input, hinput, wire, hwire, hadmits, origin, lit, hlit, hstored, hway⟩
    · exact ⟨_, _, hcell, isSome_of_ofPulse?_eq_raw hraw, .refl⟩
    · have hlinks := hplain.linked.toWellLinked
      obtain ⟨other, hother, htarget⟩ := (hlinks.mem_inputs_iff _ _ _ hcell).mp hinput
      cases hwire.symm.trans hother
      exact ⟨origin, lit, hlit, hstored, hway.tail ⟨input, wire, hwire, hadmits, rfl, htarget⟩⟩
  | here => exact fun _ _ _ => Or.inl rfl
  | head hwire hadmits hsource _ ih =>
    rintro rfl rfl rfl
    have hreached := ih (hplain.flip_step hwire hadmits) rfl
    rw [id_of_cell? hplain.linked.keyed (cell_ok_iff.mp hsource)] at hreached
    exact Or.inr ⟨_, List.mem_cons_self, _, hwire, hadmits, hreached⟩
  | tail _ ih =>
    intro hc hoffset hcolour
    refine (ih hc hoffset hcolour).imp_right ?_
    rintro ⟨input, hinput, hrest⟩
    exact ⟨input, List.mem_cons_of_mem _ hinput, hrest⟩
  | look _ _ ih => exact ih

theorem Plain.carries_iff_reached (hplain : Plain h.present colour) {id : CellId} :
    Carries (h.chart sides) anywhere (.ask 0 id colour) ↔ h.present.Reached colour id :=
  ⟨fun hcarries => hplain.fed hcarries rfl rfl, hplain.carries_of_reached⟩

end History

/-- In a circuit where only raw pulses move in a colour and no wire that admits it leaves the present, a query
about the present is answered by a raw pulse if wires lead to the cell from one that stores a pulse, and by
nothing otherwise, whatever was recorded and asked before. -/
theorem Circuit.Reachable.raw_firing {c : Circuit} (hc : c.Reachable) {colour : Colour}
    (hpulse : ∀ id cell pulse, c.cell id = .ok cell → cell.fire.get colour = some pulse → pulse = .raw)
    (hkind : ∀ id cell, c.cell id = .ok cell → cell.kind ≠ .creation ∧ cell.kind ≠ .destruction)
    (htiming : ∀ id wire, c.wire id = .ok wire → wire.colour.admits colour = true → wire.timing = .now)
    (validate : Bool) (past future : List Circuit) (queries : List Query) {id : CellId} {cell : Cell}
    (hcell : c.cell id = .ok cell) :
    (c.Reached colour id →
        ((ofHistory validate c past future).asked queries).reply ⟨id, colour, .now⟩ =
          .ok (.success .raw [] false)) ∧
      (¬ c.Reached colour id →
        ((ofHistory validate c past future).asked queries).reply ⟨id, colour, .now⟩ = .ok (.fail [])) := by
  let h : History := ⟨validate, c, past, future⟩
  have hplain : History.Plain h.present colour := by
    refine ⟨hc.sound.linked, fun id cell hcell => ?_, hkind, htiming⟩
    cases hheld : cell.fire.get colour with
    | none => exact Or.inl rfl
    | some pulse => exact Or.inr (by rw [hpulse id cell pulse hcell hheld])
  have hreply : ∀ peak, Settles (h.chart fun _ => false) h.fresh.depthBound (.look 0 id colour .now) (.ok peak) →
      ((ofHistory validate c past future).asked queries).reply ⟨id, colour, .now⟩ = .ok peak := by
    intro peak hsettles
    have hanswer := (History.Asked.queries h _ queries).reply_eq (q := ⟨id, colour, .now⟩)
      (History.straight_untrusted _) hsettles
    have hlive : h.present.cell id = .ok cell := hcell
    rw [hlive] at hanswer
    exact hanswer
  have hiff : Carries (h.chart fun _ => false) anywhere (.ask 0 id colour) ↔ c.Reached colour id :=
    hplain.carries_iff_reached
  rw [← hiff]
  rcases hplain.settles hcell with ⟨hcarries, hsettles⟩ | ⟨hnot, hsettles⟩
  · exact ⟨fun _ => hreply _ hsettles, fun hnot => absurd hcarries hnot⟩
  · exact ⟨fun hcarries => absurd hcarries hnot, fun _ => hreply _ hsettles⟩

/-- Two relays on a red loop, the first of them fired, and a third one that the loop feeds in blue only. -/
def ring : Circuit :=
  Circuit.initial.performAll true
    [.createCell .root .relay .origin, .createCell .root .relay .origin, .createCell .root .relay .origin,
      .createWire ⟨1⟩ ⟨2⟩ (.only .red) .now, .createWire ⟨2⟩ ⟨1⟩ .any .now,
      .createWire ⟨2⟩ ⟨3⟩ (.only .blue) .past, .fireCell ⟨1⟩ .red]

/-- In red the loop fires, and the third relay does not. -/
theorem raw_firing_ring :
    ((ofHistory true ring [.initial] []).asked [⟨⟨3⟩, .red, .now⟩]).reply ⟨⟨2⟩, .red, .now⟩ =
        .ok (.success .raw [] false) ∧
      ((ofHistory true ring [.initial] []).asked [⟨⟨2⟩, .red, .now⟩]).reply ⟨⟨3⟩, .red, .now⟩ =
        .ok (.fail []) := by
  have hring : ring.Reachable := .performAll .initial true _
  have hcells : ∀ cell ∈ ring.cells,
      (cell.fire.red = none ∨ cell.fire.red = some .raw) ∧ cell.kind = .relay := by
    decide +kernel
  have hwires : ∀ wire ∈ ring.wires, (wire.colour.admits .red = true → wire.timing = .now) ∧
      (wire.target = ⟨3⟩ → wire.colour.admits .red = false) := by
    decide +kernel
  have hcell : ∀ id cell, ring.cell id = .ok cell → cell ∈ ring.cells :=
    fun id cell h => mem_cells_iff_exists.mpr ⟨id, cell_ok_iff.mp h⟩
  have hwire : ∀ id wire, ring.wire id = .ok wire → wire ∈ ring.wires :=
    fun id wire h => mem_wires_iff_exists.mpr ⟨id, wire_ok_iff.mp h⟩
  have hpulse : ∀ id cell pulse, ring.cell id = .ok cell → cell.fire.get .red = some pulse → pulse = .raw := by
    intro id cell pulse h hheld
    have hred : cell.fire.red = some pulse := hheld
    rcases (hcells cell (hcell id cell h)).1 with hnone | hraw
    · cases hnone.symm.trans hred
    · exact Option.some.inj (hred.symm.trans hraw)
  have hkind : ∀ id cell, ring.cell id = .ok cell → cell.kind ≠ .creation ∧ cell.kind ≠ .destruction := by
    intro id cell h
    rw [(hcells cell (hcell id cell h)).2]
    decide
  have htiming : ∀ id wire, ring.wire id = .ok wire → wire.colour.admits .red = true → wire.timing = .now :=
    fun id wire h => (hwires wire (hwire id wire h)).1
  have hreached : ring.Reached .red ⟨2⟩ := ⟨⟨1⟩, _, rfl, rfl, .single ⟨⟨-1⟩, _, rfl, rfl, rfl, rfl⟩⟩
  have hnot : ¬ ring.Reached .red ⟨3⟩ := by
    rintro ⟨origin, lit, hlit, hstored, hway⟩
    rcases Relation.ReflTransGen.cases_tail hway with rfl | ⟨other, -, id, wire, h, hadmits, -, htarget⟩
    · cases hlit
      cases hstored
    · rw [(hwires wire (hwire id wire h)).2 htarget] at hadmits
      cases hadmits
  exact ⟨(hring.raw_firing hpulse hkind htiming true [.initial] [] [⟨⟨3⟩, .red, .now⟩] rfl).1 hreached,
    (hring.raw_firing hpulse hkind htiming true [.initial] [] [⟨⟨2⟩, .red, .now⟩] rfl).2 hnot⟩

end PulseCircuit
