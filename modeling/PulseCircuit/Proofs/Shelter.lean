import PulseCircuit.Proofs.Fading
import PulseCircuit.Proofs.Reachable

/-!
# Shelter from above

Projection keeps the pulses of a cell if some cell above it is lit. What is lit above then has changed itself,
by one cell: on the way up from the cell the topmost lit one has gone out. So a cell with some number of lit
cells above it keeps its pulses for as many ticks, whatever the tree looks like.

* `Circuit.LitAbove`, `Rooted.cell?_of_project`: what one projection keeps;
* `Circuit.litAncestors`: the lit cells above a cell, each once (`Rooted.mem_litAncestors_iff`);
* `Checked.project_eq`, `Checked.projectTimes_eq`: projecting once and many times;
* `repeated_projection`: what follows for when nothing changes any more.
-/

namespace PulseCircuit

namespace Circuit

variable {c d : Circuit}

/-! ## Pulses below lit cells -/

/-- Some cell strictly above this one holds a pulse. -/
def LitAbove (c : Circuit) (id : CellId) : Prop :=
  ∃ ancestor cell, Relation.TransGen (fun x y => c.parentOf x = some y) id ancestor ∧
    c.cell? ancestor = some cell ∧ cell.fire.isLit = true

theorem litAbove_iff {id : CellId} {cell : Cell} (hcell : c.cell? id = some cell) :
    c.LitAbove id ↔ ∃ parent above, cell.parent = some parent ∧ c.cell? parent = some above ∧
      (above.fire.isLit = true ∨ c.LitAbove parent) := by
  have hparent := parentOf_eq hcell
  constructor
  · rintro ⟨ancestor, top, hpath, htop, hlit⟩
    rcases Relation.TransGen.head'_iff.mp hpath with ⟨parent, hup, hrest⟩
    rcases Relation.reflTransGen_iff_eq_or_transGen.mp hrest with rfl | hrest
    · exact ⟨ancestor, top, hparent.symm.trans hup, htop, Or.inl hlit⟩
    · obtain ⟨next, hnext, -⟩ := Relation.TransGen.head'_iff.mp hrest
      obtain ⟨above, habove⟩ := cell?_of_ofCells hnext
      exact ⟨parent, above, hparent.symm.trans hup, habove, Or.inr ⟨ancestor, top, hrest, htop, hlit⟩⟩
  · rintro ⟨parent, above, hup, habove, hlit | ⟨ancestor, top, hpath, htop, hlit⟩⟩
    · exact ⟨parent, above, .single (hparent.trans hup), habove, hlit⟩
    · exact ⟨ancestor, top, .head (hparent.trans hup) hpath, htop, hlit⟩

/-- Lit cells are counted on the way up from a cell exactly if it is lit or some cell above it is. -/
theorem Rooted.countLit_ascent_pos_iff (h : c.Rooted) {steps : Nat} {id : CellId} {cell : Cell}
    (hcell : c.cell? id = some cell) (hreaches : c.reachesRoot steps id = true) :
    0 < countLit (c.ascent steps id) ↔ cell.fire.isLit = true ∨ c.LitAbove id := by
  induction steps using Nat.strongRecOn generalizing id cell with
  | ind steps ih =>
  rw [litAbove_iff hcell]
  rcases h.ascent_cases hcell hreaches with ⟨hend, hway⟩ | ⟨rest, parent, hsteps, hup, hrest, hway⟩
  · rw [hway, countLit_cons]
    cases cell.fire.isLit <;> simp [countLit, hend]
  · have habove : 0 < countLit (c.ascent rest parent) ↔
        ∃ above, c.cell? parent = some above ∧ (above.fire.isLit = true ∨ c.LitAbove parent) := by
      cases hparent : c.cell? parent with
      | none => simp [ascent_of_absent hparent, countLit]
      | some above => simp [ih rest (by omega) hparent hrest]
    rw [hway, countLit_cons]
    cases cell.fire.isLit with
    | true => simp
    | false => simp [habove, hup]

/-- A lit cell is sheltered exactly if some cell above it is lit. -/
theorem Rooted.mem_sheltered_iff_litAbove (h : c.Rooted) {kept : List CellId}
    (hkept : c.sheltered = .ok kept) {id : CellId} {cell : Cell} (hcell : c.cell? id = some cell)
    (hlit : cell.fire.isLit = true) : id ∈ kept ↔ c.LitAbove id := by
  obtain ⟨found, hclimb, hiff⟩ := mem_sheltered_iff h.keyed hkept hcell hlit
  rw [hiff, litAbove_iff hcell]
  rcases h.ascent_cases hcell (h.reaches hcell) with ⟨hend, -⟩ | ⟨rest, parent, -, hup, hrest, -⟩
  · rw [hend, climbToLit] at hclimb
    cases hclimb
    simp [hend]
  · rw [hup] at hclimb
    rw [h.climbToLit_iff hclimb hrest]
    cases hparent : c.cell? parent with
    | none => simp [ascent_of_absent hparent, countLit, hup, hparent]
    | some above => simp [h.countLit_ascent_pos_iff hparent hrest, hup, hparent]

/-- Projection changes nothing but pulses, and keeps those of a cell if some cell above it is lit. -/
theorem Rooted.cell?_of_project (h : c.Rooted) {validate : Bool}
    (hproject : c.project validate = .ok d) {id : CellId} {cell : Cell} (hcell : c.cell? id = some cell) :
    ∃ fire, d.cell? id = some { cell with fire := fire } ∧ (c.LitAbove id → fire = cell.fire) ∧
      (¬ c.LitAbove id → fire = .none) := by
  obtain ⟨kept, hkept, rfl⟩ := project_ok hproject
  have hid := id_of_cell? h.keyed hcell
  have hlook : (c.keepPulses kept).cell? id =
      some (if kept.contains cell.id then cell else { cell with fire := .none }) := by
    rw [keepPulses_eq_mapCells, cell?_mapCells, hcell, Option.map_some]
  rw [hlook]
  cases hlit : cell.fire.isLit with
  | false =>
    have hdark := Fire.eq_none_of_dim hlit
    refine ⟨.none, ?_, fun _ => hdark.symm, fun _ => rfl⟩
    split
    · rw [← hdark]
    · rfl
  | true =>
    have hkeeps : kept.contains cell.id = true ↔ c.LitAbove id := by
      rw [List.contains_iff_mem, hid, h.mem_sheltered_iff_litAbove hkept hcell hlit]
    by_cases habove : c.LitAbove id
    · exact ⟨cell.fire, by rw [if_pos (hkeeps.mpr habove)], fun _ => rfl, fun hnot => absurd habove hnot⟩
    · have hout : ¬ kept.contains cell.id = true := fun hin => habove (hkeeps.mp hin)
      exact ⟨.none, by rw [if_neg hout], fun hin => absurd hin habove, fun _ => rfl⟩

/-- What is lit above a cell depends on parents and on which cells hold pulses. -/
theorem litAbove_congr (h : d.litAt = c.litAt) (id : CellId) :
    d.LitAbove id ↔ c.LitAbove id := by
  have hparents : d.parentOf = c.parentOf := by
    funext x
    have hx := congrFun h x
    cases hd : d.cell? x <;> cases hc : c.cell? x <;> simp_all [litAt, Circuit.parentOf, ofCells]
  have hlit : ∀ x, (∃ cell, d.cell? x = some cell ∧ cell.fire.isLit = true) ↔
      ∃ cell, c.cell? x = some cell ∧ cell.fire.isLit = true := by
    intro x
    have hx := congrFun h x
    cases hd : d.cell? x <;> cases hc : c.cell? x <;> simp_all [litAt]
  simp only [LitAbove, hparents, exists_and_left, hlit]

/-! ## The lit cells above a cell -/

/-- A live cell is on the way up from another exactly if that one climbs to it. -/
theorem Rooted.mem_ascent_iff (h : c.Rooted) {fuel : Nat} {id : CellId}
    (hreaches : c.reachesRoot fuel id = true) {cell : Cell} :
    cell ∈ c.ascent fuel id ↔ c.cell? cell.id = some cell ∧ Climbs c.parentOf cell.id id := by
  induction fuel using Nat.strongRecOn generalizing id with
  | ind fuel ih =>
  cases hfirst : c.cell? id with
  | none =>
    -- nothing leads away from where there is no cell
    rw [ascent_of_absent hfirst]
    refine iff_of_false List.not_mem_nil fun ⟨hcell, hclimbs⟩ => ?_
    obtain ⟨found, hfound⟩ := live_of_climbs ⟨cell, hcell⟩ hclimbs
    rw [hfirst] at hfound
    cases hfound
  | some first =>
  have hself : cell = first ↔ c.cell? cell.id = some cell ∧ id = cell.id := by
    constructor
    · rintro rfl
      have hid := id_of_cell? h.keyed hfirst
      exact ⟨hid ▸ hfirst, hid.symm⟩
    · rintro ⟨hcell, heq⟩
      rw [← heq, hfirst] at hcell
      exact (Option.some.inj hcell).symm
  rw [Climbs, Relation.ReflTransGen.cases_head_iff, parentOf_eq hfirst, and_or_left, ← hself]
  rcases h.ascent_cases hfirst hreaches with ⟨hend, hway⟩ | ⟨rest, parent, hfuel, hup, hrest, hway⟩
  · simp [hway, hend]
  · rw [hway, List.mem_cons, ih rest (by omega) hrest]
    simp [hup, Climbs]

/-- The way up meets no cell twice. -/
theorem Rooted.nodup_ascent (h : c.Rooted) {fuel : Nat} {id : CellId}
    (hreaches : c.reachesRoot fuel id = true) : ((c.ascent fuel id).map (·.id)).Nodup := by
  induction fuel using Nat.strongRecOn generalizing id with
  | ind fuel ih =>
  cases hfirst : c.cell? id with
  | none =>
    rw [ascent_of_absent hfirst]
    exact List.nodup_nil
  | some first =>
  rcases h.ascent_cases hfirst hreaches with ⟨-, hway⟩ | ⟨rest, parent, hfuel, hup, hrest, hway⟩
  · rw [hway]
    exact List.nodup_singleton _
  · rw [hway, List.map_cons, List.nodup_cons]
    refine ⟨fun hmem => ?_, ih rest (by omega) hrest⟩
    -- else the way would come back to the cell
    obtain ⟨other, hother, heq⟩ := List.mem_map.mp hmem
    have hclimbs := ((h.mem_ascent_iff hrest).mp hother).2
    rw [heq, id_of_cell? h.keyed hfirst] at hclimbs
    exact h.acyclic id (.head' ((parentOf_eq hfirst).trans hup) hclimbs)

/-- The ids of the lit cells strictly above a cell, from its parent up. -/
def litAncestors (c : Circuit) (id : CellId) : List CellId :=
  ((c.ascent c.size id).tail.filter (·.fire.isLit)).map (·.id)

theorem length_litAncestors (c : Circuit) (id : CellId) :
    (c.litAncestors id).length = countLit (c.ascent c.size id).tail := by
  rw [litAncestors, List.length_map, countLit, List.countP_eq_length_filter]

/-- What is above a cell is on the way up from its parent. -/
theorem Rooted.tail_ascent_cases (h : c.Rooted) (id : CellId) :
    (c.parentOf id = none ∧ (c.ascent c.size id).tail = []) ∨
    ∃ rest parent, c.size = rest + 1 ∧ c.parentOf id = some parent ∧
      c.reachesRoot rest parent = true ∧ (c.ascent c.size id).tail = c.ascent rest parent := by
  cases hcell : c.cell? id with
  | none => exact Or.inl ⟨by simp [Circuit.parentOf, ofCells, hcell], by rw [ascent_of_absent hcell]; rfl⟩
  | some cell =>
    rw [parentOf_eq hcell]
    rcases h.ascent_cases hcell (h.reaches hcell) with ⟨hend, hway⟩ |
      ⟨rest, parent, hsize, hup, hrest, hway⟩
    · exact Or.inl ⟨hend, by rw [hway]; rfl⟩
    · exact Or.inr ⟨rest, parent, hsize, hup, hrest, by rw [hway]; rfl⟩

theorem Rooted.mem_litAncestors_iff (h : c.Rooted) {id x : CellId} :
    x ∈ c.litAncestors id ↔ Relation.TransGen (fun x y => c.parentOf x = some y) id x ∧
      ∃ cell, c.cell? x = some cell ∧ cell.fire.isLit = true := by
  rw [Relation.TransGen.head'_iff, litAncestors]
  rcases h.tail_ascent_cases id with ⟨hup, habove⟩ | ⟨rest, parent, -, hup, hrest, habove⟩
  · simp [hup, habove]
  · simp only [habove, hup, List.mem_map, List.mem_filter, h.mem_ascent_iff hrest, Option.some.injEq,
      exists_eq_left']
    constructor
    · rintro ⟨cell, ⟨⟨hcell, hclimbs⟩, hlit⟩, rfl⟩
      exact ⟨hclimbs, cell, hcell, hlit⟩
    · rintro ⟨hclimbs, cell, hcell, hlit⟩
      have hid := id_of_cell? h.keyed hcell
      exact ⟨cell, ⟨⟨hid.symm ▸ hcell, hid.symm ▸ hclimbs⟩, hlit⟩, hid⟩

theorem Rooted.litAbove_iff_litAncestors (h : c.Rooted) {id : CellId} :
    c.LitAbove id ↔ 1 ≤ (c.litAncestors id).length := by
  rw [Nat.succ_le_iff, List.length_pos_iff_exists_mem]
  constructor
  · rintro ⟨ancestor, cell, hpath, hcell, hlit⟩
    exact ⟨ancestor, h.mem_litAncestors_iff.mpr ⟨hpath, cell, hcell, hlit⟩⟩
  · rintro ⟨ancestor, hmem⟩
    obtain ⟨hpath, cell, hcell, hlit⟩ := h.mem_litAncestors_iff.mp hmem
    exact ⟨ancestor, cell, hpath, hcell, hlit⟩

theorem Rooted.nodup_litAncestors (h : c.Rooted) (id : CellId) : (c.litAncestors id).Nodup := by
  cases hcell : c.cell? id with
  | none =>
    rw [litAncestors, ascent_of_absent hcell]
    exact List.nodup_nil
  | some cell =>
    refine (h.nodup_ascent (h.reaches hcell)).sublist (List.Sublist.map _ ?_)
    exact List.filter_sublist.trans (List.tail_sublist _)

/-- The largest number of lit cells on one way up, told by what is lit above each cell. -/
theorem Rooted.litDepth_le_iff_litAncestors (h : c.Rooted) {n : Nat} :
    c.litDepth ≤ n ↔ ∀ id cell, c.cell? id = some cell →
      (c.litAncestors id).length + (if cell.fire.isLit then 1 else 0) ≤ n := by
  rw [h.keyed.litDepth_le_iff]
  refine forall₃_congr fun id cell hcell => ?_
  rw [length_litAncestors]
  rcases h.ascent_cases hcell (h.reaches hcell) with ⟨-, hway⟩ | ⟨rest, parent, -, -, -, hway⟩ <;>
    rw [hway, countLit_cons, List.tail_cons]

/-- With each projection a cell loses one of the lit cells above it. -/
theorem Rooted.length_litAncestors_keepPulses (h : c.Rooted) {kept : List CellId}
    (hkept : c.sheltered = .ok kept) (id : CellId) :
    ((c.keepPulses kept).litAncestors id).length = (c.litAncestors id).length - 1 := by
  rw [length_litAncestors, length_litAncestors]
  -- parents stay, so both ways up end at once or go on over the same parent
  rcases (h.keepPulses kept).tail_ascent_cases id with ⟨hup', habove'⟩ |
      ⟨rest', parent', hsize', hup', -, habove'⟩ <;>
    rcases h.tail_ascent_cases id with ⟨hup, habove⟩ | ⟨rest, parent, hsize, hup, hrest, habove⟩ <;>
    rw [parentOf_keepPulses, hup] at hup' <;> cases hup'
  · rw [habove, habove']
    rfl
  · rw [size_keepPulses, hsize] at hsize'
    cases hsize'
    rw [habove, habove']
    exact h.countLit_ascent_keepPulses hkept hrest

/-! ## Many projections -/

/-- The circuit with pulses only where at least `k` cells above are lit. -/
def keptUnder (c : Circuit) (k : Nat) : Circuit :=
  c.mapCells fun cell =>
    { cell with fire := if k ≤ (c.litAncestors cell.id).length then cell.fire else .none }

/-- The projection of the projection and so on, as many times as is said. -/
def projectTimes (validate : Bool) (c : Circuit) : Nat → Except Fault Circuit
  | 0 => .ok c
  | k + 1 => (c.projectTimes validate k).bind fun d => d.project validate

theorem keptUnder_zero (c : Circuit) : c.keptUnder 0 = c :=
  mapCells_eq_self fun _ => by simp

/-- One projection keeps pulses where there is a lit cell above. -/
theorem Rooted.eq_keptUnder_of_project (h : c.Rooted) {validate : Bool}
    (hproject : c.project validate = .ok d) : d = c.keptUnder 1 := by
  obtain ⟨kept, -, hd⟩ := project_ok hproject
  rw [hd, keepPulses_eq_mapCells, keptUnder]
  refine mapCells_congr fun {id cell} hcell => ?_
  obtain ⟨fire, hlook, hkept, hout⟩ := h.cell?_of_project hproject hcell
  rw [hd, keepPulses_eq_mapCells, cell?_mapCells, hcell, Option.map_some, Option.some.injEq] at hlook
  rw [hlook, id_of_cell? h.keyed hcell]
  by_cases habove : 1 ≤ (c.litAncestors id).length
  · rw [if_pos habove, hkept (h.litAbove_iff_litAncestors.mpr habove)]
  · rw [if_neg habove, hout (mt h.litAbove_iff_litAncestors.mp habove)]

/-- The pulses kept at first and then once more are those with one more lit cell above. -/
theorem keptUnder_keptUnder {k : Nat}
    (hlit : ∀ id, ((c.keptUnder k).litAncestors id).length = (c.litAncestors id).length - k) :
    (c.keptUnder k).keptUnder 1 = c.keptUnder (k + 1) := by
  refine (mapCells_mapCells ..).trans (mapCells_congr fun {_ cell} _ => ?_)
  simp only [hlit]
  by_cases habove : k + 1 ≤ (c.litAncestors cell.id).length
  · have hone : 1 ≤ (c.litAncestors cell.id).length - k := by omega
    have hmore : k ≤ (c.litAncestors cell.id).length := by omega
    rw [if_pos hone, if_pos hmore, if_pos habove]
  · have hnone : ¬ 1 ≤ (c.litAncestors cell.id).length - k := by omega
    rw [if_neg hnone, if_neg habove]

/-- A checked circuit can be projected as many times as one likes. -/
theorem Checked.projectTimes_eq (h : c.Checked) (validate : Bool) (k : Nat) :
    c.projectTimes validate k = .ok (c.keptUnder k) ∧ (c.keptUnder k).Checked ∧
      ∀ id, ((c.keptUnder k).litAncestors id).length = (c.litAncestors id).length - k := by
  induction k with
  | zero =>
    rw [keptUnder_zero]
    exact ⟨rfl, h, fun _ => rfl⟩
  | succ k ih =>
    obtain ⟨htimes, hchecked, hlit⟩ := ih
    obtain ⟨d, hproject⟩ := hchecked.project_ok validate
    have hd : d = c.keptUnder (k + 1) :=
      (hchecked.rooted.eq_keptUnder_of_project hproject).trans (keptUnder_keptUnder hlit)
    rw [← hd]
    refine ⟨?_, hchecked.of_project hproject, fun id => ?_⟩
    · rw [projectTimes, htimes]
      exact hproject
    · obtain ⟨kept, hkept, rfl⟩ := Circuit.project_ok hproject
      rw [hchecked.rooted.length_litAncestors_keepPulses hkept, hlit, Nat.sub_sub]

theorem Checked.project_keptUnder (h : c.Checked) (validate : Bool) (k : Nat) :
    (c.keptUnder k).project validate = .ok (c.keptUnder (k + 1)) := by
  have hnext := (h.projectTimes_eq validate (k + 1)).1
  rw [projectTimes, (h.projectTimes_eq validate k).1] at hnext
  exact hnext

/-! ## When nothing changes any more -/

theorem Checked.litDepth_keptUnder (h : c.Checked) (k : Nat) :
    (c.keptUnder k).litDepth = c.litDepth - k := by
  induction k with
  | zero => rw [keptUnder_zero, Nat.sub_zero]
  | succ k ih =>
    have hchecked := (h.projectTimes_eq true k).2.1
    rw [hchecked.rooted.litDepth_project (h.project_keptUnder true k), ih, Nat.sub_sub]

theorem Checked.isQuiet_keptUnder_iff (h : c.Checked) (k : Nat) :
    (c.keptUnder k).isQuiet = true ↔ c.litDepth ≤ k := by
  rw [(h.projectTimes_eq true k).2.1.rooted.isQuiet_iff_litDepth, h.litDepth_keptUnder, Nat.sub_eq_zero_iff_le]

/-- What a circuit without pulses is projected to shows the same state, and nothing else does. -/
theorem Rooted.sameState_project_iff (h : c.Rooted) (hnumeric : c.Numeric) {validate : Bool}
    (hproject : c.project validate = .ok d) :
    (d.sameState c = true ↔ c.isQuiet = true) ∧ (c.sameState d = true ↔ c.isQuiet = true) := by
  have hkeys := keys_project hproject
  have hkeyed : d.Keyed := by
    obtain ⟨kept, -, rfl⟩ := project_ok hproject
    exact h.keyed.keepPulses kept
  have hdepth := h.litDepth_project hproject
  -- with a pulse anywhere the lit depth is not zero, and the projection has made it less
  have hquiet : d.litDepth = c.litDepth → c.isQuiet = true := fun heq =>
    h.isQuiet_iff_litDepth.mpr (by omega)
  have hself : c.isQuiet = true → d = c := fun hdark =>
    h.project_eq_self (h.isQuiet_iff_litDepth.mp hdark) hproject
  refine ⟨⟨fun hsame => hquiet (litDepth_of_sameState hkeyed h.keyed hkeys hsame), fun hdark => ?_⟩,
    ⟨fun hsame => hquiet (litDepth_of_sameState h.keyed hkeyed hkeys.symm hsame).symm, fun hdark => ?_⟩⟩
  · rw [hself hdark]
    exact sameState_self hnumeric
  · rw [hself hdark]
    exact sameState_self hnumeric

/-- A circuit that passes its check can be projected as often as one likes. After `k` projections a cell holds
its pulses as before if at least `k` cells above it held one at first, else none, and nothing else has changed.
So a circuit shows the state of its projection only if it is quiet, and it is quiet after as many projections as
there are lit cells on one way up. -/
theorem repeated_projection (hkeyed : c.Keyed) (hcheck : c.checkAll = .ok ()) (validate : Bool) :
    (∀ k, c.projectTimes validate k = .ok (c.keptUnder k)) ∧
    (∀ id, (c.litAncestors id).Nodup ∧ ∀ x, x ∈ c.litAncestors id ↔
      Relation.TransGen (fun x y => c.parentOf x = some y) id x ∧
        ∃ cell, c.cell x = .ok cell ∧ cell.fire.isLit = true) ∧
    (c.Numeric → ∃ d, c.project validate = .ok d ∧
      (d.sameState c = true ↔ c.isQuiet = true) ∧ (c.sameState d = true ↔ c.isQuiet = true)) ∧
    (∀ k, (c.keptUnder k).isQuiet = true ↔ c.litDepth ≤ k) ∧
    ∀ n, c.litDepth ≤ n ↔ ∀ id cell, c.cell id = .ok cell →
      (c.litAncestors id).length + (if cell.fire.isLit then 1 else 0) ≤ n := by
  have hchecked := checked_of_checkAll hkeyed hcheck
  have hrooted := hchecked.rooted
  refine ⟨fun k => (hchecked.projectTimes_eq validate k).1, fun id =>
    ⟨hrooted.nodup_litAncestors id, fun x => ?_⟩, fun hnumeric => ?_, hchecked.isQuiet_keptUnder_iff,
    fun n => ?_⟩
  · simp only [hrooted.mem_litAncestors_iff, cell_ok_iff]
  · obtain ⟨d, hproject⟩ := hchecked.project_ok validate
    exact ⟨d, hproject, hrooted.sameState_project_iff hnumeric hproject⟩
  · simp only [hrooted.litDepth_le_iff_litAncestors, cell_ok_iff]

/-- A chain of three cells below the root, with pulses on the root and on the two lowest. -/
def beacons : Circuit :=
  initial.performAll true
    [.createCell .root .relay .origin, .createCell ⟨1⟩ .relay .origin, .createCell ⟨2⟩ .relay .origin,
      .fireCell .root .red, .fireCell ⟨2⟩ .green,
      .fire ⟨3⟩ .blue (.creation (some ⟨.relay, .origin⟩))]

theorem repeated_projection_beacons :
    beacons.Keyed ∧ beacons.checkAll = .ok () ∧ beacons.Numeric ∧
      (∀ k, beacons.projectTimes true k = .ok (beacons.keptUnder k)) ∧
      (∃ d, beacons.project true = .ok d ∧ d.sameState beacons = false) ∧
      ∀ k, (beacons.keptUnder k).isQuiet = true ↔ 3 ≤ k := by
  have hkeyed : beacons.Keyed := (Reachable.performAll .initial true _).sound.linked.keyed
  have hcheck : beacons.checkAll = .ok () := by decide
  have hnumeric : beacons.Numeric := by decide
  have hdepth : beacons.litDepth = 3 := by decide
  obtain ⟨htimes, -, hsame, hquiet, -⟩ := repeated_projection hkeyed hcheck true
  obtain ⟨d, hproject, hback, -⟩ := hsame hnumeric
  refine ⟨hkeyed, hcheck, hnumeric, htimes, ⟨d, hproject, ?_⟩, hdepth ▸ hquiet⟩
  rw [Bool.eq_false_iff, ne_eq, hback]
  decide

end Circuit

end PulseCircuit
