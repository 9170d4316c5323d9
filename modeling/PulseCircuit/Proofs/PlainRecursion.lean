import Mathlib.Data.Finset.Card
import Mathlib.Logic.Relation
import PulseCircuit.Proofs.Fading

/-!
# Plain recursion

What a peak means, without anything remembered, pending or closed: fold the inputs of the cell, where an
input within the tick brings the peak of its source, and an input over time the peak of its source one tick
on, as long as there is a pulse left. The equation (`Recurs`) has one solution if no wires within a tick form
a cycle: a pulse comes to a cell over fewer cells than there are upstream of it, and over fewer ticks than
there are lit cells above each other (`plainDepth`).

* `Circuit.plainPeak`: the solution, found in as many rounds as the depth allows;
* `Linked.recurs_plainPeak`, `Linked.recurs_unique`: it is one, and the only one.
-/

namespace PulseCircuit

/-- Folds the peaks that come over some hops, in order and up to the first final one. -/
def Peak.foldAll (candidate : Hop → Peak) : List Hop → Peak → Peak
  | [], peak => peak
  | hop :: hops, peak =>
    if (peak.fold (candidate hop) hop).isFinal then peak.fold (candidate hop) hop
    else foldAll candidate hops (peak.fold (candidate hop) hop)

theorem Peak.foldAll_congr {candidate other : Hop → Peak} {hops : List Hop}
    (h : ∀ hop ∈ hops, candidate hop = other hop) (peak : Peak) :
    peak.foldAll candidate hops = peak.foldAll other hops := by
  induction hops generalizing peak with
  | nil => rfl
  | cons hop hops ih =>
    rw [foldAll, foldAll, h hop List.mem_cons_self,
      ih fun hop hmem => h hop (List.mem_cons_of_mem _ hmem)]

namespace Circuit

/-! ## The equation -/

/-- The hop over an input wire, if the wire admits the colour. -/
def hop? (c : Circuit) (target : Cell) (colour : Colour) (input : WireId) : Option Hop := do
  let wire ← c.wire? input
  let source ← c.cell? wire.source
  if wire.colour.admits colour then some ⟨source, target, wire⟩ else none

/-- The hops on which a colour may come to a cell, in the order of its inputs. -/
def hops (c : Circuit) (target : Cell) (colour : Colour) : List Hop :=
  target.inputs.filterMap (c.hop? target colour)

/-- A peak for every tick, cell and colour. -/
abbrev Reading := Nat → CellId → Colour → Peak

/-- What comes over a hop in some tick. Once there is no pulse left, nothing comes over time. -/
def candidate (ticks : Nat → Circuit) (R : Reading) (k : Nat) (colour : Colour) (hop : Hop) : Peak :=
  if hop.wire.timing = .now then R k hop.source.id colour
  else if (ticks k).isQuiet then .nothing
  else R (k + 1) hop.source.id colour

/-- The peak of a cell: what is stored there, or what its inputs make of it. -/
def plainStep (ticks : Nat → Circuit) (R : Reading) : Reading := fun k id colour =>
  match (ticks k).cell? id with
  | none => .nothing
  | some target =>
    if (Peak.ofPulse? (target.fire.get colour) []).isFinal then .ofPulse? (target.fire.get colour) []
    else (Peak.ofPulse? (target.fire.get colour) []).foldAll (candidate ticks R k colour)
      ((ticks k).hops target colour)

/-- The peaks are what recursion makes of them. -/
def Recurs (ticks : Nat → Circuit) (R : Reading) : Prop := R = plainStep ticks R

/-- What is known of the peaks after some rounds of recursion. -/
def plainRounds (ticks : Nat → Circuit) : Nat → Reading
  | 0 => fun _ _ _ => .nothing
  | n + 1 => plainStep ticks (plainRounds ticks n)

/-- Rounds enough for any cell in any tick. -/
def plainBound (c : Circuit) : Nat := (c.size + 1) * (c.size + 2)

/-- The peak of a cell some ticks on, by plain recursion. -/
def plainPeak (validate : Bool) (c : Circuit) : Reading :=
  plainRounds (c.after validate) c.plainBound

/-! ## Circuits without cycles -/

/-- Within a tick a wire leads from one cell to the other. -/
def Passes (c : Circuit) (source target : CellId) : Prop :=
  ∃ w wire, c.wire w = .ok wire ∧ wire.timing = .now ∧ wire.source = source ∧ wire.target = target

/-- No cycle of wires within a tick. -/
def Acyclic (c : Circuit) : Prop := ∀ id, ¬ Relation.TransGen c.Passes id id

/-- Cells that can be numbered along the wires are on no cycle. -/
theorem acyclic_of_number {c : Circuit} (number : CellId → Int)
    (h : ∀ wire ∈ c.wires, wire.timing = .now → number wire.source < number wire.target) :
    c.Acyclic := by
  have hpasses : ∀ source target, c.Passes source target → number source < number target := by
    rintro source target ⟨w, wire, hwire, hnow, rfl, rfl⟩
    exact h wire (mem_wires_iff_exists.mpr ⟨w, wire_ok_iff.mp hwire⟩) hnow
  have hpath : ∀ source target, Relation.TransGen c.Passes source target →
      number source < number target := by
    intro source target hreach
    induction hreach with
    | single hstep => exact hpasses _ _ hstep
    | tail _ hstep ih => exact Int.lt_trans ih (hpasses _ _ hstep)
  exact fun id hcycle => Int.lt_irrefl _ (hpath id id hcycle)

open Classical in
/-- The cells from which a pulse can come within a tick. -/
noncomputable def upstream (c : Circuit) (id : CellId) : Finset CellId :=
  (c.cells.map (·.id)).toFinset.filter fun source => Relation.TransGen c.Passes source id

/-- How many cells in how many ticks may have to be asked for a peak. -/
noncomputable def plainDepth (validate : Bool) (c : Circuit) (k : Nat) (id : CellId) : Nat :=
  (c.after validate k).litDepth * (c.size + 1) + (c.upstream id).card

theorem mem_upstream {c : Circuit} {id source : CellId} : source ∈ c.upstream id ↔
    (∃ cell ∈ c.cells, cell.id = source) ∧ Relation.TransGen c.Passes source id := by
  simp only [upstream, Finset.mem_filter, List.mem_toFinset, List.mem_map]

theorem card_upstream_le (c : Circuit) (id : CellId) : (c.upstream id).card ≤ c.size := by
  have hsub : c.upstream id ⊆ (c.cells.map (·.id)).toFinset := fun source hsource => by
    rw [List.mem_toFinset, List.mem_map]
    exact (mem_upstream.mp hsource).1
  calc (c.upstream id).card
    _ ≤ (c.cells.map (·.id)).toFinset.card := Finset.card_le_card hsub
    _ ≤ (c.cells.map (·.id)).length := List.toFinset_card_le _
    _ = c.cells.length := List.length_map ..
    _ ≤ c.live.values.length := List.length_filterMap_le ..
    _ = c.size := List.length_map ..

variable {c : Circuit} {validate : Bool}

theorem hop?_eq {input : WireId} {wire : Wire} {source : Cell} (hwire : c.wire? input = some wire)
    (hsource : c.cell? wire.source = some source) (target : Cell) (colour : Colour) :
    c.hop? target colour input =
      if wire.colour.admits colour then some ⟨source, target, wire⟩ else none := by
  rw [hop?, hwire, Option.bind_eq_bind, Option.bind_some, hsource, Option.bind_eq_bind, Option.bind_some]

theorem mem_hops {target : Cell} {colour : Colour} {hop : Hop} (h : hop ∈ c.hops target colour) :
    ∃ input ∈ target.inputs, c.wire? input = some hop.wire ∧
      c.cell? hop.wire.source = some hop.source := by
  obtain ⟨input, hinput, hhop⟩ := List.mem_filterMap.mp h
  obtain ⟨wire, hwire, hrest⟩ := Option.bind_eq_some_iff.mp hhop
  obtain ⟨source, hsource, hend⟩ := Option.bind_eq_some_iff.mp hrest
  split at hend
  · cases hend
    exact ⟨input, hinput, hwire, hsource⟩
  · cases hend

namespace Linked

/-- A cell has more cells upstream than one from which a wire leads there. -/
theorem card_upstream_lt (h : c.Linked) (hacyclic : c.Acyclic) {source target : CellId}
    (hpasses : c.Passes source target) : (c.upstream source).card < (c.upstream target).card := by
  obtain ⟨w, wire, hwire, hnow, rfl, rfl⟩ := hpasses
  obtain ⟨cell, hcell⟩ := h.source_live (wire_ok_iff.mp hwire)
  have hstep : c.Passes wire.source wire.target := ⟨w, wire, hwire, hnow, rfl, rfl⟩
  refine Finset.card_lt_card ⟨fun id hid => ?_, fun hsub => ?_⟩
  · obtain ⟨hlive, hreach⟩ := mem_upstream.mp hid
    exact mem_upstream.mpr ⟨hlive, hreach.tail hstep⟩
  · -- the source itself is upstream of the target, but not of itself
    have hlive : ∃ cell ∈ c.cells, cell.id = wire.source :=
      ⟨cell, mem_cells_iff_exists.mpr ⟨_, hcell⟩, id_of_cell? h.keyed hcell⟩
    exact hacyclic _ (mem_upstream.mp (hsub (mem_upstream.mpr ⟨hlive, .single hstep⟩))).2

theorem plainDepth_lt_plainBound (h : c.Linked) (validate : Bool) (k : Nat) (id : CellId) :
    c.plainDepth validate k id < c.plainBound := by
  have hlit : (c.after validate k).litDepth ≤ c.size + 1 :=
    Nat.le_trans (h.litDepth_after_le validate k) c.litDepth_le_size
  calc c.plainDepth validate k id
    _ ≤ (c.size + 1) * (c.size + 1) + c.size :=
      Nat.add_le_add (Nat.mul_le_mul_right _ hlit) (c.card_upstream_le id)
    _ < (c.size + 1) * (c.size + 1) + (c.size + 1) := by omega
    _ = c.plainBound := (Nat.mul_succ ..).symm

/-- Within a tick each hop comes from a cell that is less deep. -/
theorem plainDepth_now (h : c.Linked) (hacyclic : c.Acyclic) {k : Nat} {id : CellId} {target : Cell}
    (hcell : (c.after validate k).cell? id = some target) {colour : Colour} {hop : Hop}
    (hhop : hop ∈ (c.after validate k).hops target colour) (hnow : hop.wire.timing = .now) :
    c.plainDepth validate k hop.source.id < c.plainDepth validate k id := by
  have hk := h.after validate k
  obtain ⟨input, hinput, hwire, hsource⟩ := mem_hops hhop
  have htarget : hop.wire.target = id := by
    have hlisted := hk.targets.target_of_mem (inputsOf_eq hcell) hinput
    rw [targetOf_eq hwire] at hlisted
    exact Option.some.inj hlisted
  have hpasses : c.Passes hop.source.id id := by
    rw [h.wire?_after] at hwire
    exact ⟨input, hop.wire, wire_ok_iff.mpr hwire, hnow, (id_of_cell? hk.keyed hsource).symm, htarget⟩
  exact Nat.add_lt_add_left (h.card_upstream_lt hacyclic hpasses) _

/-- A tick on every cell is less deep, if there is a pulse left. -/
theorem plainDepth_next (h : c.Linked) {k : Nat} (hlit : (c.after validate k).isQuiet = false)
    (source id : CellId) : c.plainDepth validate (k + 1) source < c.plainDepth validate k id := by
  have hdarker := h.litDepth_after_lt hlit
  calc c.plainDepth validate (k + 1) source
    _ ≤ (c.after validate (k + 1)).litDepth * (c.size + 1) + c.size :=
      Nat.add_le_add_left (c.card_upstream_le source) _
    _ < ((c.after validate (k + 1)).litDepth + 1) * (c.size + 1) := by
      rw [Nat.succ_mul]
      omega
    _ ≤ (c.after validate k).litDepth * (c.size + 1) := Nat.mul_le_mul_right _ hdarker
    _ ≤ c.plainDepth validate k id := Nat.le_add_right ..

end Linked

/-! ## One solution -/

/-- Two readings agree on all cells that are less deep. -/
def AgreeBelow (validate : Bool) (c : Circuit) (n : Nat) (R R' : Reading) : Prop :=
  ∀ k id colour, c.plainDepth validate k id < n → R k id colour = R' k id colour

namespace Linked

/-- A round of recursion takes the agreement of two readings one step deeper. -/
theorem agree_step (h : c.Linked) (hacyclic : c.Acyclic) {n : Nat} {R R' : Reading}
    (hagree : AgreeBelow validate c n R R') :
    AgreeBelow validate c (n + 1) (plainStep (c.after validate) R) (plainStep (c.after validate) R') := by
  intro k id colour hdepth
  rw [plainStep, plainStep]
  cases hcell : (c.after validate k).cell? id with
  | none => rfl
  | some target =>
    have hcandidate : ∀ hop ∈ (c.after validate k).hops target colour,
        candidate (c.after validate) R k colour hop = candidate (c.after validate) R' k colour hop := by
      intro hop hhop
      rw [candidate, candidate]
      split
      next hnow =>
        have hlt := h.plainDepth_now hacyclic hcell hhop hnow
        exact hagree k _ colour (by omega)
      next =>
        split
        next => rfl
        next hlit =>
          have hlt := h.plainDepth_next (Bool.eq_false_iff.mpr hlit) hop.source.id id
          exact hagree (k + 1) _ colour (by omega)
    simp only [Peak.foldAll_congr hcandidate]

theorem agree_rounds (h : c.Linked) (hacyclic : c.Acyclic) (n : Nat) :
    AgreeBelow validate c n (plainRounds (c.after validate) n)
      (plainRounds (c.after validate) (n + 1)) := by
  induction n with
  | zero => exact fun k id colour hdepth => absurd hdepth (Nat.not_lt_zero _)
  | succ n ih => exact h.agree_step hacyclic ih

theorem agree_of_recurs (h : c.Linked) (hacyclic : c.Acyclic) {R : Reading}
    (hrecurs : Recurs (c.after validate) R) (n : Nat) :
    AgreeBelow validate c n (plainRounds (c.after validate) n) R := by
  induction n with
  | zero => exact fun k id colour hdepth => absurd hdepth (Nat.not_lt_zero _)
  | succ n ih =>
    rw [hrecurs]
    exact h.agree_step hacyclic ih

theorem eq_of_agree (h : c.Linked) {R R' : Reading}
    (hagree : AgreeBelow validate c c.plainBound R R') : R = R' := by
  funext k id colour
  exact hagree k id colour (h.plainDepth_lt_plainBound validate k id)

/-- No round more changes anything. -/
theorem recurs_plainPeak (h : c.Linked) (hacyclic : c.Acyclic) (validate : Bool) :
    Recurs (c.after validate) (c.plainPeak validate) :=
  h.eq_of_agree (h.agree_rounds hacyclic c.plainBound)

theorem recurs_unique (h : c.Linked) (hacyclic : c.Acyclic) {R : Reading}
    (hrecurs : Recurs (c.after validate) R) : R = c.plainPeak validate :=
  (h.eq_of_agree (h.agree_of_recurs hacyclic hrecurs c.plainBound)).symm

end Linked

end Circuit

end PulseCircuit
