import PulseCircuit.Proofs.Harvest
import PulseCircuit.Proofs.Shelter

/-!
# What a beat does to the circuit

A beat changes kinds, tags and pulses of cells and nothing else. Its operations change the kind of a cell and
tag it, and a cell's kind is what the last operation on it makes of it; projection then puts out every pulse
that no lit cell shelters from above. What the operations are is read off the peaks the beat has found:
a pulse that comes to rest in a slot fills it, one that comes to rest anywhere else empties the cell, and no
other peak wants anything changed.

* `SameLayout`: what no beat changes;
* `Harvested.mem_modify_iff`, `Harvested.mem_tag_iff`: where operations come from;
* `CellDone`, `BeatDone`: what a beat makes of each cell, and what it reports;
* `Reachable.beat_done`: every beat of a reachable machine that succeeds does just that.
-/

namespace PulseCircuit

open Circuit Evaluator Running

/-! ## Layout -/

/-- The cell without what a beat can change. -/
def Cell.outline (cell : Cell) : Cell := { cell with kind := .slot, fire := .none, tags := [] }

namespace Circuit

/-- The same rows in the same order, in which only kinds, pulses and tags of cells may differ. -/
structure SameLayout (c d : Circuit) : Prop where
  keys : d.live.keys = c.live.keys
  archive : d.archive = c.archive
  ids : d.ids = c.ids
  wire : ∀ id, d.wire? id = c.wire? id
  cell : ∀ id, (d.cell? id).map Cell.outline = (c.cell? id).map Cell.outline

namespace SameLayout

variable {c d e : Circuit}

theorem refl (c : Circuit) : c.SameLayout c := ⟨rfl, rfl, rfl, fun _ => rfl, fun _ => rfl⟩

theorem symm (h : c.SameLayout d) : d.SameLayout c where
  keys := h.keys.symm
  archive := h.archive.symm
  ids := h.ids.symm
  wire id := (h.wire id).symm
  cell id := (h.cell id).symm

theorem trans (h : c.SameLayout d) (h' : d.SameLayout e) : c.SameLayout e where
  keys := h'.keys.trans h.keys
  archive := h'.archive.trans h.archive
  ids := h'.ids.trans h.ids
  wire id := (h'.wire id).trans (h.wire id)
  cell id := (h'.cell id).trans (h.cell id)

theorem mapCells (c : Circuit) {change : Cell → Cell}
    (houtline : ∀ cell, (change cell).outline = cell.outline) : c.SameLayout (c.mapCells change) where
  keys := Table.keys_map _ _
  archive := rfl
  ids := rfl
  wire id := wire?_mapCells c change id
  cell id := by
    rw [cell?_mapCells, Option.map_map]
    exact congrArg (fun f => (c.cell? id).map f) (funext houtline)

theorem changeCell (c : Circuit) (id : CellId) {change : Cell → Cell}
    (houtline : ∀ cell, (change cell).outline = cell.outline) : c.SameLayout (c.changeCell id change) where
  keys := by
    unfold Circuit.changeCell
    split
    · exact Table.keys_update _ _ _
    · rfl
  archive := by
    unfold Circuit.changeCell
    split <;> rfl
  ids := by
    unfold Circuit.changeCell
    split <;> rfl
  wire := wire?_changeCell c id change
  cell x := by
    rw [cell?_changeCell]
    split
    next hx =>
      rw [hx, Option.map_map]
      exact congrArg (fun f => (c.cell? id).map f) (funext houtline)
    next => rfl

/-- A layout has the same cells. -/
theorem exists_cell (h : c.SameLayout d) {id : CellId} {cell : Cell} (hcell : c.cell? id = some cell) :
    ∃ new, d.cell? id = some new ∧ new.outline = cell.outline := by
  have hsame := h.cell id
  rw [hcell, Option.map_some] at hsame
  exact Option.map_eq_some_iff.mp hsame

theorem parentOf (h : c.SameLayout d) : d.parentOf = c.parentOf := by
  funext id
  have hsame := congrArg (fun cell => cell.bind Cell.parent) (h.cell id)
  rw [Option.bind_map, Option.bind_map] at hsame
  exact hsame

end SameLayout

theorem SameLayout.of_project {c d : Circuit} {validate : Bool} (hproject : c.project validate = .ok d) :
    c.SameLayout d := by
  obtain ⟨kept, -, rfl⟩ := project_ok hproject
  rw [keepPulses_eq_mapCells]
  refine .mapCells c fun cell => ?_
  split <;> rfl

end Circuit

/-! ## Operations on one cell -/

/-- The operations a peak can have: a change of kind, a tag, a pong. -/
def Operation.Gentle : Operation → Prop
  | .modify _ fields => ∃ kind, fields = .ofKind kind
  | .tag _ _ | .pong _ => True
  | .modifyWire _ _ => False

/-- The cell once an operation is carried out, which may be about another one. -/
def Cell.after (cell : Cell) : Operation → Cell
  | .modify id fields => if id = cell.id then cell.restyle fields else cell
  | .tag id key => if id = cell.id then cell.tag key else cell
  | .modifyWire _ _ | .pong _ => cell

namespace Cell

variable (cell : Cell) (operations : List Operation)

theorem id_after (operation : Operation) : (cell.after operation).id = cell.id := by
  unfold after
  split
  · split <;> rfl
  · split <;> rfl
  · rfl
  · rfl

theorem fire_after (operation : Operation) : (cell.after operation).fire = cell.fire := by
  unfold after
  split
  · split <;> rfl
  · split <;> rfl
  · rfl
  · rfl

theorem fire_foldl_after : (operations.foldl after cell).fire = cell.fire := by
  induction operations generalizing cell with
  | nil => rfl
  | cons operation operations ih => rw [List.foldl_cons, ih, fire_after]

theorem kind_after {operation : Operation} (hgentle : operation.Gentle) :
    ((∀ kind, operation ≠ .modify cell.id (.ofKind kind)) ∧ (cell.after operation).kind = cell.kind) ∨
      ∃ kind, operation = .modify cell.id (.ofKind kind) ∧ (cell.after operation).kind = kind := by
  cases operation with
  | modify id fields =>
    obtain ⟨kind, rfl⟩ := hgentle
    by_cases hhere : id = cell.id
    · exact Or.inr ⟨kind, by rw [hhere], by rw [after, if_pos hhere]; rfl⟩
    · refine Or.inl ⟨fun other heq => hhere (Operation.modify.inj heq).1, ?_⟩
      rw [after, if_neg hhere]
  | tag id key =>
    refine Or.inl ⟨by simp, ?_⟩
    rw [after]
    split <;> rfl
  | modifyWire | pong => exact Or.inl ⟨by simp, rfl⟩

/-- The last change of a cell's kind counts. -/
theorem kind_foldl_after (hgentle : ∀ operation ∈ operations, operation.Gentle) :
    ((∀ kind, .modify cell.id (.ofKind kind) ∉ operations) ∧
        (operations.foldl after cell).kind = cell.kind) ∨
      ∃ kind, .modify cell.id (.ofKind kind) ∈ operations ∧ (operations.foldl after cell).kind = kind := by
  induction operations generalizing cell with
  | nil => exact Or.inl ⟨fun _ => List.not_mem_nil, rfl⟩
  | cons operation operations ih =>
    rw [List.foldl_cons]
    have hrest := ih (cell.after operation) fun other hmem => hgentle other (List.mem_cons_of_mem _ hmem)
    rw [id_after] at hrest
    rcases hrest with ⟨hnone, hsame⟩ | ⟨kind, hmem, hsame⟩
    · -- no later operation changes the kind, so this one does or none at all
      rcases cell.kind_after (hgentle operation List.mem_cons_self) with ⟨hne, hkeeps⟩ | ⟨kind, rfl, hkind⟩
      · refine Or.inl ⟨fun kind hmem => ?_, hsame.trans hkeeps⟩
        rcases List.mem_cons.mp hmem with heq | hmem
        · exact hne kind heq.symm
        · exact hnone kind hmem
      · exact Or.inr ⟨kind, List.mem_cons_self, hsame.trans hkind⟩
    · exact Or.inr ⟨kind, List.mem_cons_of_mem _ hmem, hsame⟩

theorem hasTag_tag (key other : CellTag) :
    (cell.tag key).hasTag other = true ↔ cell.hasTag other = true ∨ other = key := by
  simp only [hasTag, tag, List.contains_iff_mem, (exact_of_lawful key).mem_addNew]

/-- A tag stays, and comes with an operation that sets it. -/
theorem hasTag_foldl_after (key : CellTag) :
    (operations.foldl after cell).hasTag key = true ↔
      cell.hasTag key = true ∨ .tag cell.id key ∈ operations := by
  induction operations generalizing cell with
  | nil => simp
  | cons operation operations ih =>
    rw [List.foldl_cons, ih, id_after, List.mem_cons, ← or_assoc]
    refine or_congr_left ?_
    cases operation with
    | modify id fields =>
      have hsame : (cell.after (.modify id fields)).hasTag key = cell.hasTag key := by
        rw [after]
        split <;> rfl
      simp [hsame]
    | tag id other =>
      rw [after]
      split
      next hid => rw [hasTag_tag, hid, Operation.tag.injEq, and_iff_right rfl]
      next hid => simp [Ne.symm hid]
    | modifyWire id fields => simp [after]
    | pong id => simp [after]

end Cell

namespace Circuit

variable {c : Circuit}

theorem cell?_carriedOut (h : c.Keyed) (operation : Operation) (id : CellId) :
    (c.carriedOut operation).cell? id = (c.cell? id).map fun cell => cell.after operation := by
  cases hcell : c.cell? id with
  | none =>
    have hgone : ∀ target change, (c.changeCell target change).cell? id = none := by
      intro target change
      rw [cell?_changeCell]
      split
      next heq => rw [← heq, hcell, Option.map_none]
      next => exact hcell
    cases operation with
    | modify | tag => exact hgone _ _
    | modifyWire | pong => exact hcell
  | some cell =>
    have hid := id_of_cell? h hcell
    have hchange : ∀ target change, (c.changeCell target change).cell? id =
        some (if target = cell.id then change cell else cell) := by
      intro target change
      rw [cell?_changeCell, hid]
      by_cases heq : id = target
      · rw [if_pos heq, if_pos heq.symm, ← heq, hcell, Option.map_some]
      · rw [if_neg heq, if_neg (Ne.symm heq), hcell]
    cases operation with
    | modify | tag => exact hchange _ _
    | modifyWire | pong => exact hcell

theorem SameLayout.carriedOut (c : Circuit) {operation : Operation} (hgentle : operation.Gentle) :
    c.SameLayout (c.carriedOut operation) := by
  cases operation with
  | modify id fields =>
    obtain ⟨kind, rfl⟩ := hgentle
    exact .changeCell c id fun _ => rfl
  | tag id key => exact .changeCell c id fun _ => rfl
  | modifyWire | pong => exact .refl c

theorem Linked.cell?_foldl_carriedOut (h : c.Linked) (operations : List Operation) (id : CellId) :
    (operations.foldl Circuit.carriedOut c).cell? id = (c.cell? id).map (operations.foldl Cell.after) := by
  induction operations generalizing c with
  | nil => simp
  | cons operation operations ih =>
    rw [List.foldl_cons, ih (h.carriedOut operation), cell?_carriedOut h.keyed, Option.map_map]
    rfl

theorem SameLayout.foldl_carriedOut (c : Circuit) {operations : List Operation}
    (hgentle : ∀ operation ∈ operations, operation.Gentle) :
    c.SameLayout (operations.foldl Circuit.carriedOut c) := by
  induction operations generalizing c with
  | nil => exact .refl c
  | cons operation operations ih =>
    have hfirst := SameLayout.carriedOut c (hgentle operation List.mem_cons_self)
    exact hfirst.trans (ih _ fun other hmem => hgentle other (List.mem_cons_of_mem _ hmem))

end Circuit

/-! ## Where operations come from -/

/-- The kind that the peak gives its cell, if it comes to rest there. -/
def Peak.landed? : Peak → Option CellKind
  | .success (.creation (some template)) _ true => some template.kind
  | .success .destruction _ true => some .slot
  | _ => none

namespace Peak.Shaped

variable {cell : Cell} {held : Option Pulse} {peak : Peak}

/-- What has come to rest fills an untagged slot or empties a destroyable cell. -/
theorem halted_cases (h : Shaped cell held peak) (hhalted : peak.isHalted = true) :
    (∃ template, peak = .success (.creation (some template))
        [.modify cell.id (.ofKind template.kind), .tag cell.id .justCreated] true ∧
        cell.kind = .slot ∧ cell.hasTag .justCreated = false) ∨
      (peak = .success .destruction [.modify cell.id (.ofKind .slot)] true ∧
        cell.kind.isDestroyable = true) := by
  cases h with
  | filled hkind htag => exact Or.inl ⟨_, rfl, hkind, htag⟩
  | emptied hkind => exact Or.inr ⟨rfl, hkind⟩
  | nothing | stored | raw | ping | creation | destruction => cases hhalted

/-- Nothing else wants a cell changed. -/
theorem halted_of_mem (h : Shaped cell held peak) {operation : Operation}
    (hmem : operation ∈ peak.operations) (hpong : ∀ id, operation ≠ .pong id) : peak.isHalted = true := by
  cases h with
  | filled | emptied => rfl
  | ping hanswers _ =>
    rcases List.mem_append.mp hmem with hbefore | hlast
    · obtain ⟨id, heq⟩ := hanswers operation hbefore
      exact absurd heq (hpong id)
    · exact absurd (List.mem_singleton.mp hlast) (hpong cell.id)
  | nothing | stored | raw | creation | destruction => cases hmem

end Peak.Shaped

namespace Machine

variable {m m' : Machine} {gathered : Harvest}

/-- A creation pulse with this template comes to rest at the cell. -/
def Fills (m : Machine) (id : CellId) (template : Template) : Prop :=
  ∃ colour operations, m.Finds id colour (.success (.creation (some template)) operations true)

/-- A destruction pulse comes to rest at the cell. -/
def Empties (m : Machine) (id : CellId) : Prop :=
  ∃ colour operations, m.Finds id colour (.success .destruction operations true)

section Landing

variable {id : CellId} {old : Cell}

/-- A peak of a cell that has come to rest fills the cell, an untagged slot, or empties it. -/
theorem Finds.halted_cases {colour : Colour} {peak : Peak} (hfinds : m.Finds id colour peak) (h : m.Sound)
    (hold : m.circuit.cell? id = some old) (hhalted : peak.isHalted = true) :
    (∃ template, peak = .success (.creation (some template))
        [.modify id (.ofKind template.kind), .tag id .justCreated] true ∧
        old.kind = .slot ∧ old.hasTag .justCreated = false) ∨
      (peak = .success .destruction [.modify id (.ofKind .slot)] true ∧ old.kind.isDestroyable = true) := by
  rcases hfinds.shaped h with rfl | ⟨cell, hcell, hid, hshaped⟩
  · cases hhalted
  · cases hold.symm.trans hcell
    have hcases := hshaped.halted_cases hhalted
    rw [hid] at hcases
    exact hcases

theorem Fills.slot {template : Template} (hfills : m.Fills id template) (h : m.Sound)
    (hold : m.circuit.cell? id = some old) : old.kind = .slot := by
  obtain ⟨colour, operations, hfinds⟩ := hfills
  rcases hfinds.halted_cases h hold rfl with ⟨_, -, hkind, -⟩ | ⟨heq, -⟩
  · exact hkind
  · cases heq

theorem Empties.destroyable (hempties : m.Empties id) (h : m.Sound)
    (hold : m.circuit.cell? id = some old) : old.kind.isDestroyable = true := by
  obtain ⟨colour, operations, hfinds⟩ := hempties
  rcases hfinds.halted_cases h hold rfl with ⟨_, heq, -, -⟩ | ⟨-, hkind⟩
  · cases heq
  · exact hkind

theorem Empties.not_fills (hempties : m.Empties id) (h : m.Sound) (hold : m.circuit.cell? id = some old)
    (template : Template) : ¬ m.Fills id template := by
  intro hfills
  have hkind := hempties.destroyable h hold
  rw [hfills.slot h hold] at hkind
  cases hkind

/-- An operation on the cell that is gathered comes from a peak of this cell that has come to rest. -/
theorem Harvested.exists_halted (hharvest : m.Harvested gathered) (h : m.Sound) {operation : Operation}
    (hmem : operation ∈ gathered.operations) (hpong : ∀ id, operation ≠ .pong id)
    (htarget : operation.target = id.toId) :
    ∃ colour peak, m.Finds id colour peak ∧ peak.isHalted = true ∧ operation ∈ peak.operations := by
  obtain ⟨other, colour, peak, hfinds, -, hin⟩ := (hharvest.mem_operations_iff h).mp hmem
  rcases hfinds.shaped h with rfl | ⟨cell, hcell, hid, hshaped⟩
  · cases hin
  · have hhalted := hshaped.halted_of_mem hin hpong
    have hsame : operation.target = other.toId := by
      rcases hshaped.operation_cases hin with ⟨y, rfl⟩ | ⟨kind, rfl⟩ | rfl
      · exact absurd rfl (hpong y)
      · rw [Operation.target, hid]
      · rw [Operation.target, hid]
    obtain rfl : id = other := CellId.toId_inj.mp (htarget.symm.trans hsame)
    exact ⟨colour, peak, hfinds, hhalted, hin⟩

/-- The kind of a cell is changed to that of a template that fills it, or to a slot. -/
theorem Harvested.mem_modify_iff (hharvest : m.Harvested gathered) (h : m.Sound)
    (hold : m.circuit.cell? id = some old) {kind : CellKind} :
    .modify id (.ofKind kind) ∈ gathered.operations ↔
      (∃ template, m.Fills id template ∧ kind = template.kind) ∨ (m.Empties id ∧ kind = .slot) := by
  constructor
  · intro hmem
    obtain ⟨colour, peak, hfinds, hhalted, hin⟩ := hharvest.exists_halted h hmem (by simp) rfl
    rcases hfinds.halted_cases h hold hhalted with ⟨template, rfl, -, -⟩ | ⟨rfl, -⟩
    · refine Or.inl ⟨template, ⟨colour, _, hfinds⟩, ?_⟩
      simpa [Peak.operations, CellPatch.ofKind] using hin
    · refine Or.inr ⟨⟨colour, _, hfinds⟩, ?_⟩
      simpa [Peak.operations, CellPatch.ofKind] using hin
  · rintro (⟨template, ⟨colour, operations, hfinds⟩, rfl⟩ | ⟨⟨colour, operations, hfinds⟩, rfl⟩) <;>
      refine (hharvest.mem_operations_iff h).mpr ⟨id, colour, _, hfinds, rfl, ?_⟩ <;>
      rcases hfinds.halted_cases h hold rfl with ⟨_, heq, -, -⟩ | ⟨heq, -⟩ <;>
      cases heq <;>
      exact List.mem_cons_self

/-- A cell is tagged where it is filled. -/
theorem Harvested.mem_tag_iff (hharvest : m.Harvested gathered) (h : m.Sound)
    (hold : m.circuit.cell? id = some old) :
    .tag id .justCreated ∈ gathered.operations ↔ ∃ template, m.Fills id template := by
  constructor
  · intro hmem
    obtain ⟨colour, peak, hfinds, hhalted, hin⟩ := hharvest.exists_halted h hmem (by simp) rfl
    rcases hfinds.halted_cases h hold hhalted with ⟨template, rfl, -, -⟩ | ⟨rfl, -⟩
    · exact ⟨template, colour, _, hfinds⟩
    · simp [Peak.operations] at hin
  · rintro ⟨template, colour, operations, hfinds⟩
    refine (hharvest.mem_operations_iff h).mpr ⟨id, colour, _, hfinds, rfl, ?_⟩
    rcases hfinds.halted_cases h hold rfl with ⟨_, heq, -, -⟩ | ⟨heq, -⟩
    · cases heq
      exact List.mem_cons_of_mem _ List.mem_cons_self
    · cases heq

end Landing

theorem Harvested.gentle (hharvest : m.Harvested gathered) (h : m.Sound) :
    ∀ operation ∈ gathered.operations, operation.Gentle := by
  intro operation hmem
  rcases hharvest.operation_cases h hmem with ⟨y, rfl⟩ | ⟨id, -, ⟨kind, rfl⟩ | rfl⟩
  · trivial
  · exact ⟨kind, rfl⟩
  · trivial

/-! ## The effect of a beat -/

/-- What a beat makes of a cell. -/
structure CellDone (m : Machine) (id : CellId) (old new : Cell) : Prop where
  /-- A pulse comes to rest only where it fills an untagged slot or empties a destroyable cell. -/
  rests : ∀ colour peak, m.Finds id colour peak → peak.isHalted = true →
    (∃ template operations, peak = .success (.creation (some template)) operations true ∧
        old.kind = .slot ∧ old.hasTag .justCreated = false) ∨
      ∃ operations, peak = .success .destruction operations true ∧ old.kind.isDestroyable = true
  emptied : m.Empties id → new.kind = .slot
  filled : (∃ template, m.Fills id template) → ∃ template, m.Fills id template ∧ new.kind = template.kind
  kept : ¬ m.Empties id → (¬ ∃ template, m.Fills id template) → new.kind = old.kind
  tagged : new.hasTag .justCreated = true ↔ ∃ template, m.Fills id template
  sheltered : m.circuit.LitAbove id → new.fire = old.fire
  unsheltered : ¬ m.circuit.LitAbove id → new.fire = .none

/-- What a beat makes of the circuit, and what it reports. -/
structure BeatDone (m : Machine) (report : BeatReport) (m' : Machine) : Prop where
  /-- There is one peak for each live cell and each colour. -/
  found : ∀ id cell, m.circuit.cell? id = some cell → ∀ colour, ∃! peak, m.Finds id colour peak
  layout : m.circuit.SameLayout m'.circuit
  cells : ∀ id old, m.circuit.cell? id = some old →
    ∃ new, m'.circuit.cell? id = some new ∧ m.CellDone id old new
  /-- The cells that fire are reported in the order of their rows, each once. -/
  firing : ∀ id, id ∈ report.firing ↔ ∃ colour peak, m.Finds id colour peak ∧ peak.isSuccess = true
  ordered : report.firing.Sublist (m.circuit.cells.map (·.id))
  nodup_firing : report.firing.Nodup
  nodup_operations : report.operations.Nodup
  nodup_pongs : report.pongs.Nodup

theorem foldl_add (applied : Applied) (operations : List Operation) :
    operations.foldl Applied.add applied =
      ⟨applied.operations ++ operations.filter fun operation => !(operation matches .pong _),
        applied.pongs ++ operations.filterMap fun
          | .pong id => some id
          | _ => none⟩ := by
  induction operations generalizing applied with
  | nil => simp
  | cons operation operations ih =>
    rw [List.foldl_cons, ih]
    cases operation <;> simp [Applied.add]

theorem nodup_applied (hnodup : gathered.operations.Nodup) :
    gathered.applied.operations.Nodup ∧ gathered.applied.pongs.Nodup := by
  rw [Harvest.applied, foldl_add]
  constructor
  · exact hnodup.filter _
  · refine List.Nodup.filterMap (fun operation other id hin hother => ?_) hnodup
    cases operation <;> cases other <;> simp_all

/-- All operations but pongs are reported. -/
theorem mem_report_operations {stats : EvalStats} {operation : Operation} :
    operation ∈ (m.report gathered stats).operations ↔
      operation ∈ gathered.operations ∧ ∀ y, operation ≠ .pong y := by
  rw [report, Harvest.applied, foldl_add, Applied.nothing, List.nil_append, List.mem_filter]
  cases operation <;> simp

/-- The cells once the operations of a beat are carried out. -/
theorem Sound.cell?_changed (h : m.Sound) (id : CellId) :
    (m.changed gathered).cell? id = (m.circuit.cell? id).map fun cell =>
      gathered.operations.foldl Cell.after { cell with tags := [] } := by
  have hmap : m.circuit.withoutTags = m.circuit.mapCells fun cell => { cell with tags := [] } := rfl
  rw [changed, h.circuit.withoutTags.linked.cell?_foldl_carriedOut, hmap, cell?_mapCells, Option.map_map]
  rfl

theorem Harvested.sameLayout_changed (hharvest : m.Harvested gathered) (h : m.Sound) :
    m.circuit.SameLayout (m.changed gathered) := by
  have hcleared : m.circuit.SameLayout m.circuit.withoutTags := .mapCells m.circuit fun _ => rfl
  exact hcleared.trans (.foldl_carriedOut _ (hharvest.gentle h))

/-- Operations leave pulses alone. -/
theorem Sound.fire_changed (h : m.Sound) (id : CellId) :
    ((m.changed gathered).cell? id).map Cell.fire = (m.circuit.cell? id).map Cell.fire := by
  rw [h.cell?_changed, Option.map_map]
  cases m.circuit.cell? id with
  | none => rfl
  | some cell => exact congrArg some (Cell.fire_foldl_after _ _)

theorem Harvested.litAbove_changed_iff (hharvest : m.Harvested gathered) (h : m.Sound) (id : CellId) :
    (m.changed gathered).LitAbove id ↔ m.circuit.LitAbove id :=
  litAbove_congr (litAt_congr (hharvest.sameLayout_changed h).parentOf h.fire_changed) id

theorem Sound.linked_changed (h : m.Sound) (gathered : Harvest) : (m.changed gathered).Linked :=
  h.circuit.withoutTags.linked.foldl_carriedOut gathered.operations

/-- The kind that the operations of a beat leave a cell with. -/
theorem Harvested.kind_cases (hharvest : m.Harvested gathered) (h : m.Sound) {id : CellId} {old : Cell}
    (hold : m.circuit.cell? id = some old) {kind : CellKind}
    (hkind : (gathered.operations.foldl Cell.after { old with tags := [] }).kind = kind) :
    (m.Empties id ∧ kind = .slot) ∨ (∃ template, m.Fills id template ∧ kind = template.kind) ∨
      (¬ m.Empties id ∧ (¬ ∃ template, m.Fills id template) ∧ kind = old.kind) := by
  have hid := id_of_cell? h.circuit.linked.keyed hold
  have hlast := ({ old with tags := [] } : Cell).kind_foldl_after gathered.operations (hharvest.gentle h)
  rw [hkind] at hlast
  simp only [hid, hharvest.mem_modify_iff h hold] at hlast
  rcases hlast with ⟨hnone, hsame⟩ | ⟨_, ⟨template, hfills, rfl⟩ | ⟨hempties, rfl⟩, hlast⟩
  · refine Or.inr (Or.inr ⟨fun hempties => ?_, ?_, hsame⟩)
    · exact hnone .slot (Or.inr ⟨hempties, rfl⟩)
    · rintro ⟨template, hfills⟩
      exact hnone template.kind (Or.inl ⟨template, hfills, rfl⟩)
  · exact Or.inr (Or.inl ⟨template, hfills, hlast⟩)
  · exact Or.inl ⟨hempties, hlast⟩

theorem Harvested.cellDone (hharvest : m.Harvested gathered) (h : m.Sound) {projected : Circuit}
    (hproject : (m.changed gathered).project m.validate = .ok projected) {id : CellId} {old : Cell}
    (hold : m.circuit.cell? id = some old) :
    ∃ new, projected.cell? id = some new ∧ m.CellDone id old new := by
  have hchanged : (m.changed gathered).cell? id =
      some (gathered.operations.foldl Cell.after { old with tags := [] }) := by
    rw [h.cell?_changed, hold, Option.map_some]
  obtain ⟨fire, hnew, hsheltered, hunsheltered⟩ :=
    (h.linked_changed gathered).rooted.cell?_of_project hproject hchanged
  rw [hharvest.litAbove_changed_iff h] at hsheltered hunsheltered
  rw [Cell.fire_foldl_after] at hsheltered
  have hkind := hharvest.kind_cases h hold rfl
  have htag := ({ old with tags := [] } : Cell).hasTag_foldl_after gathered.operations .justCreated
  refine ⟨_, hnew, ?_, ?_, ?_, ?_, ?_, hsheltered, hunsheltered⟩
  · intro colour peak hfinds hhalted
    rcases hfinds.halted_cases h hold hhalted with ⟨template, rfl, hslot⟩ | ⟨rfl, hkind⟩
    · exact Or.inl ⟨template, _, rfl, hslot⟩
    · exact Or.inr ⟨_, rfl, hkind⟩
  · intro hempties
    rcases hkind with ⟨-, hslot⟩ | ⟨template, hfills, -⟩ | ⟨hnot, -, -⟩
    · exact hslot
    · exact absurd hfills (hempties.not_fills h hold template)
    · exact absurd hempties hnot
  · rintro ⟨template, hfills⟩
    rcases hkind with ⟨hempties, -⟩ | hfilled | ⟨-, hnot, -⟩
    · exact absurd hfills (hempties.not_fills h hold template)
    · exact hfilled
    · exact absurd ⟨template, hfills⟩ hnot
  · intro hnotEmpty hnotFilled
    rcases hkind with ⟨hempties, -⟩ | ⟨template, hfills, -⟩ | ⟨-, -, hsame⟩
    · exact absurd hempties hnotEmpty
    · exact absurd ⟨template, hfills⟩ hnotFilled
    · exact hsame
  · rw [← hharvest.mem_tag_iff h hold, ← id_of_cell? h.circuit.linked.keyed hold]
    exact htag.trans (or_iff_right (by simp [Cell.hasTag]))

/-- A beat that succeeds has gathered all its answers, carried out what they want and projected the outcome. -/
theorem Sound.beat_cases_of_ok (h : m.Sound) {report : BeatReport} (hbeat : Machine.beat m = .ok report m') :
    ∃ gathered stats projected, m.Harvested gathered ∧
      (m.changed gathered).project m.validate = .ok projected ∧
      report = m.report gathered stats ∧ m' = m.movedOn gathered projected := by
  cases hrun : harvestAll { m with beats := m.beats + 1 } with
  | error fault m₁ =>
    rw [Machine.beat, bind_of_ok (modify_run _ _), bind_of_error hrun] at hbeat
    cases hbeat
  | ok found m₁ =>
    obtain ⟨gathered, stats⟩ := found
    obtain ⟨rfl, hcount⟩ := harvestAll_of_ok hrun
    -- the number of beats is not asked for
    have hharvest : m.Harvested gathered :=
      ⟨hcount.peaks, hcount.operations, hcount.sublist, hcount.firing⟩
    obtain ⟨projected, hproject, hdone⟩ := h.beat_of_gathered hrun (hharvest.suits h)
    rw [hdone] at hbeat
    cases hbeat
    exact ⟨gathered, stats, projected, hharvest, hproject, rfl, rfl⟩

/-- A beat of a reachable machine that succeeds does to the circuit what the peaks it has found say, and
nothing else. -/
theorem Reachable.beat_done (h : m.Reachable) {report : BeatReport}
    (hbeat : Machine.beat m = .ok report m') : m.BeatDone report m' := by
  obtain ⟨gathered, stats, projected, hharvest, hproject, rfl, rfl⟩ := h.sound.beat_cases_of_ok hbeat
  have hnodup := nodup_applied (hharvest.nodup_operations h.sound)
  exact {
    found := fun _ _ hcell => hharvest.existsUnique_finds h.sound hcell
    layout := (hharvest.sameLayout_changed h.sound).trans (.of_project hproject)
    cells := fun _ _ => hharvest.cellDone h.sound hproject
    firing := fun _ => hharvest.mem_firing_iff
    ordered := hharvest.sublist
    nodup_firing := h.sound.circuit.linked.keyed.nodup_cells.sublist hharvest.sublist
    nodup_operations := hnodup.1
    nodup_pongs := hnodup.2 }

/-- A creation cell beside a slot and a destruction cell beside a recording one, both lit, and a lit relay
below the creation cell. -/
def factory : Machine :=
  (ofCircuit true .initial).performAll
    [.edit true (.createCell .root .creation .origin), .edit true (.createCell .root .slot .origin),
      .edit true (.createCell .root .destruction .origin), .edit true (.createCell .root .recording .origin),
      .edit true (.createCell ⟨1⟩ .relay .origin), .edit true (.createWire ⟨1⟩ ⟨2⟩ .any .now),
      .edit true (.createWire ⟨3⟩ ⟨4⟩ .any .now), .fire ⟨1⟩ .red, .fire ⟨3⟩ .red, .fire ⟨5⟩ .blue]

/-- The slot is filled, the recording cell is emptied, and of the pulses only the one below a lit cell is
left. -/
theorem beat_done_factory :
    ∃ report m', Machine.beat factory = .ok report m' ∧ factory.BeatDone report m' ∧
      report.firing = [⟨1⟩, ⟨2⟩, ⟨3⟩, ⟨4⟩, ⟨5⟩] ∧
      (m'.circuit.cells.map fun cell => (cell.kind, cell.tags, cell.fire.isLit)) =
        [(.relay, [], false), (.creation, [], false), (.recording, [.justCreated], false),
          (.destruction, [], false), (.slot, [], false), (.relay, [], true)] := by
  have hread : Machine.beat.read? (fun report m' =>
        (report.firing, m'.circuit.cells.map fun cell => (cell.kind, cell.tags, cell.fire.isLit))) factory =
      some ([⟨1⟩, ⟨2⟩, ⟨3⟩, ⟨4⟩, ⟨5⟩],
        [(.relay, [], false), (.creation, [], false), (.recording, [.justCreated], false),
          (.destruction, [], false), (.slot, [], false), (.relay, [], true)]) := by
    decide +kernel
  obtain ⟨report, m', hbeat, hlook⟩ := exists_of_read? hread
  obtain ⟨hfiring, hcells⟩ := Prod.mk.inj hlook
  have hfactory : factory.Reachable := .performAll (.new true) _
  exact ⟨report, m', hbeat, hfactory.beat_done hbeat, hfiring, hcells⟩

end Machine

end PulseCircuit
