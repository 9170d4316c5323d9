import PulseCircuit.Circuit.Editing
import PulseCircuit.Proofs.Ownership
import PulseCircuit.Proofs.Running
import PulseCircuit.Proofs.Subtree

/-!
# What edits leave behind

An edit ends with a circuit in any case, with a result or with a fault. Each small edit is one change
of `Lookup`, so an edit made of them is worked out from its start: `createCell_run`, `reparent_run`,
`moveSource_run` and the others give the whole outcome of an edit on a linked circuit.

From them follows that creating and changing keep a circuit sound (`Sound.createCell` and what comes
after it), also when the edit fails half-way.
-/

namespace PulseCircuit

/-! ## Running edits -/

namespace Edit

open Running

variable {α : Type} {c d : Circuit}

theorem ask_of_ok {question : Circuit → Except Fault α} {a : α} (h : question c = .ok a) :
    ask question c = .ok a c := by
  rw [ask, h]

theorem ask_of_error {question : Circuit → Except Fault α} {fault : Fault}
    (h : question c = .error fault) : ask question c = .error fault c := by
  rw [ask, h]

theorem exists_of_ask {β : Type} {question : Circuit → Except Fault α} {rest : α → Edit β} {b : β}
    (h : (ask question >>= rest) c = .ok b d) : ∃ a, question c = .ok a ∧ rest a c = .ok b d := by
  cases hquestion : question c with
  | ok a =>
    rw [bind_of_ok (ask_of_ok hquestion)] at h
    exact ⟨a, rfl, h⟩
  | error fault =>
    rw [bind_of_error (ask_of_error hquestion)] at h
    cases h

theorem ask_cell {id : CellId} {cell : Cell} (h : c.cell? id = some cell) :
    ask (·.cell id) c = .ok cell c :=
  ask_of_ok (Circuit.cell_ok_iff.mpr h)

theorem ask_wire {id : WireId} {wire : Wire} (h : c.wire? id = some wire) :
    ask (·.wire id) c = .ok wire c :=
  ask_of_ok (Circuit.wire_ok_iff.mpr h)

theorem onCell_run {id : CellId} {cell : Cell} (h : c.cell? id = some cell) (change : Cell → Cell) :
    onCell id change c = .ok () (c.changeCell id change) := by
  rw [onCell, bind_of_ok (ask_cell h), Circuit.changeCell, h]
  rfl

theorem onWire_run {id : WireId} {wire : Wire} (h : c.wire? id = some wire) (change : Wire → Wire) :
    onWire id change c = .ok () (c.changeWire id change) := by
  rw [onWire, bind_of_ok (ask_wire h), Circuit.changeWire, h]
  rfl

theorem putRow_run (id : Id) (row : Row) : putRow id row c = .ok () (c.put id row) := rfl

theorem takeCellId_run :
    takeCellId c = .ok c.ids.takeCell.1 { c with ids := c.ids.takeCell.2 } := rfl

theorem takeWireId_run :
    takeWireId c = .ok c.ids.takeWire.1 { c with ids := c.ids.takeWire.2 } := rfl

/-- A check changes nothing. -/
theorem final_validated (validate : Bool) (touched : List Id) :
    (validated validate touched).final c = c := by
  unfold validated
  split
  · cases h : c.checkLive touched with
    | ok a => exact final_of_ok (ask_of_ok h)
    | error fault => exact final_of_error (ask_of_error h)
  · rfl

theorem final_validated_bind (validate : Bool) (touched : List Id) (a : α) :
    (validated validate touched >>= fun _ => pure a).final c = c := by
  cases h : validated validate touched c with
  | ok u d =>
    rw [final_bind_of_ok h, ← final_of_ok h, final_validated]
    rfl
  | error fault d => rw [final_bind_of_error h, ← final_of_error h, final_validated]

/-- Changing a cell and checking some rows comes to the change. -/
theorem final_onCell_validated (id : CellId) (change : Cell → Cell) (validate : Bool)
    (touched : List Id) :
    (onCell id change >>= fun _ => validated validate touched).final c =
      c.changeCell id change := by
  cases h : c.cell id with
  | ok cell =>
    rw [final_bind_of_ok (onCell_run (Circuit.cell_ok_iff.mp h) change), final_validated]
  | error fault =>
    rw [onCell, bind_assoc, final_bind_of_error (ask_of_error h), Circuit.changeCell,
      Circuit.cell?_of_error h]

/-- Changing a wire and checking some rows comes to the change. -/
theorem final_onWire_validated (id : WireId) (change : Wire → Wire) (validate : Bool)
    (touched : List Id) :
    (onWire id change >>= fun _ => validated validate touched).final c =
      c.changeWire id change := by
  cases h : c.wire id with
  | ok wire =>
    rw [final_bind_of_ok (onWire_run (Circuit.wire_ok_iff.mp h) change), final_validated]
  | error fault =>
    rw [onWire, bind_assoc, final_bind_of_error (ask_of_error h), Circuit.changeWire,
      Circuit.wire?_of_error h]

end Edit

namespace Circuit

open Edit Running

/-- The links of the circuit agree, and each id has one owner. -/
structure Sound (c : Circuit) : Prop where
  linked : c.Linked
  owned : c.Owned

variable {c : Circuit}

/-! ## Creating -/

theorem createCell_run {parent : CellId} {above : Cell} (h : c.cell? parent = some above)
    (validate : Bool) (kind : CellKind) (position : Position) :
    createCell validate parent kind position c =
      (validated validate [c.ids.takeCell.1, parent] >>= fun _ => pure c.ids.takeCell.1)
        (({ c with ids := c.ids.takeCell.2 }.put c.ids.takeCell.1
          (.cell (.fresh c.ids.takeCell.1 (some parent) kind position))).changeCell parent
          fun cell => { cell with children := cell.children ++ [c.ids.takeCell.1] }) := by
  -- the new id is not known to be another one than that of the parent
  obtain ⟨cell, hcell⟩ : ∃ cell, ({ c with ids := c.ids.takeCell.2 }.put c.ids.takeCell.1
      (.cell (.fresh c.ids.takeCell.1 (some parent) kind position))).cell? parent = some cell := by
    rw [cell?_put_cell]
    split
    · exact ⟨_, rfl⟩
    · exact ⟨above, h⟩
  rw [createCell, bind_of_ok (ask_cell h), bind_of_ok takeCellId_run, bind_of_ok (putRow_run ..),
    bind_of_ok (onCell_run hcell _)]

/-- A wire is put where it hides neither of its ends, and then added to the lists of both. -/
theorem createWire_run_of_ne {source target : CellId} {left reached : Cell}
    (hsource : c.cell? source = some left) (htarget : c.cell? target = some reached)
    (hleft : source.toId ≠ c.ids.takeWire.1) (hreached : target.toId ≠ c.ids.takeWire.1)
    (validate : Bool) (colour : ColourFilter) (timing : Timing) :
    createWire validate source target colour timing c =
      (validated validate [c.ids.takeWire.1, source, target] >>= fun _ => pure c.ids.takeWire.1)
        ((({ c with ids := c.ids.takeWire.2 }.put c.ids.takeWire.1
          (.wire ⟨c.ids.takeWire.1, source, target, colour, timing⟩)).changeCell source
          fun cell => { cell with outputs := cell.outputs ++ [c.ids.takeWire.1] }).changeCell target
          fun cell => { cell with inputs := cell.inputs ++ [c.ids.takeWire.1] }) := by
  have hput : ∀ x : CellId, x.toId ≠ c.ids.takeWire.1 →
      ({ c with ids := c.ids.takeWire.2 }.put c.ids.takeWire.1
        (.wire ⟨c.ids.takeWire.1, source, target, colour, timing⟩)).cell? x = c.cell? x :=
    fun x hne => cell?_put_of_ne _ _ hne
  obtain ⟨cell, hcell⟩ : ∃ cell, (({ c with ids := c.ids.takeWire.2 }.put c.ids.takeWire.1
      (.wire ⟨c.ids.takeWire.1, source, target, colour, timing⟩)).changeCell source
      fun cell => { cell with outputs := cell.outputs ++ [c.ids.takeWire.1] }).cell? target =
      some cell := by
    exact live_changeCell ⟨reached, (hput target hreached).trans htarget⟩ _ _
  rw [createWire, bind_of_ok (ask_cell hsource), bind_of_ok (ask_cell htarget),
    bind_of_ok takeWireId_run, bind_of_ok (putRow_run ..),
    bind_of_ok (onCell_run ((hput source hleft).trans hsource) _), bind_of_ok (onCell_run hcell _)]

theorem createWire_run (h : c.Owned) {source target : CellId} {left reached : Cell}
    (hsource : c.cell? source = some left) (htarget : c.cell? target = some reached)
    (validate : Bool) (colour : ColourFilter) (timing : Timing) :
    createWire validate source target colour timing c =
      (validated validate [c.ids.takeWire.1, source, target] >>= fun _ => pure c.ids.takeWire.1)
        ((({ c with ids := c.ids.takeWire.2 }.put c.ids.takeWire.1
          (.wire ⟨c.ids.takeWire.1, source, target, colour, timing⟩)).changeCell source
          fun cell => { cell with outputs := cell.outputs ++ [c.ids.takeWire.1] }).changeCell target
          fun cell => { cell with inputs := cell.inputs ++ [c.ids.takeWire.1] }) := by
  -- the pool hands out no id that is in use, so no cell is hidden by the new row
  have hnew := (h.absent_of_hands h.pool.takeWire.2).1
  have hne : ∀ {x : CellId} {cell : Cell}, c.cell? x = some cell → x.toId ≠ c.ids.takeWire.1 := by
    intro x cell hcell hsame
    have hlive := Table.contains_iff.mpr (mem_keys_of_cell? hcell)
    rw [hsame, hnew] at hlive
    cases hlive
  exact createWire_run_of_ne hsource htarget (hne hsource) (hne htarget) validate colour timing

namespace Sound

theorem createCell (h : c.Sound) (validate : Bool) (parent : CellId) (kind : CellKind)
    (position : Position) : ((Circuit.createCell validate parent kind position).final c).Sound := by
  cases hparent : c.cell parent with
  | error fault =>
    rw [Circuit.createCell, final_bind_of_error (ask_of_error hparent)]
    exact h
  | ok above =>
    have habove := cell_ok_iff.mp hparent
    have hhands := h.owned.pool.takeCell
    rw [final_of_run (createCell_run habove ..), final_validated_bind]
    constructor
    · have hlinked : Linked { c with ids := c.ids.takeCell.2 } := h.linked.of_live_eq rfl
      refine hlinked.addCell ?_ habove
      -- the id taken names no live row
      simpa [Table.contains] using (h.owned.absent_of_hands hhands.2).1
    · refine (h.owned.put hhands.2 ?_).changeCell _ _
      rw [CellId.noun_toId hhands.1]
      rfl

theorem createWire (h : c.Sound) (validate : Bool) (source target : CellId)
    (colour : ColourFilter) (timing : Timing) :
    ((Circuit.createWire validate source target colour timing).final c).Sound := by
  cases hsource : c.cell source with
  | error fault =>
    rw [Circuit.createWire, final_bind_of_error (ask_of_error hsource)]
    exact h
  | ok left =>
    cases htarget : c.cell target with
    | error fault =>
      rw [Circuit.createWire, final_bind_of_ok (ask_of_ok hsource),
        final_bind_of_error (ask_of_error htarget)]
      exact h
    | ok reached =>
      have hleft := cell_ok_iff.mp hsource
      have hreached := cell_ok_iff.mp htarget
      have hhands := h.owned.pool.takeWire
      rw [final_of_run (createWire_run h.owned hleft hreached ..), final_validated_bind]
      constructor
      · have hlinked : Linked { c with ids := c.ids.takeWire.2 } := h.linked.of_live_eq rfl
        refine hlinked.addWire ⟨c.ids.takeWire.1, source, target, colour, timing⟩ ?_ hleft hreached
        simpa [Table.contains] using (h.owned.absent_of_hands hhands.2).1
      · refine ((h.owned.put hhands.2 ?_).changeCell _ _).changeCell _ _
        rw [WireId.noun_toId hhands.1]
        rfl

/-! ## Pulses and tags -/

theorem setPulse (h : c.Sound) (validate : Bool) (id : CellId) (colour : Colour)
    (pulse : Option Pulse) : ((Circuit.setPulse validate id colour pulse).final c).Sound := by
  rw [Circuit.setPulse, final_onCell_validated]
  exact ⟨h.linked.changeCell id fun _ => ⟨rfl, rfl, rfl, rfl, rfl⟩, h.owned.changeCell id _⟩

theorem tagCell (h : c.Sound) (validate : Bool) (id : CellId) (tag : CellTag) :
    ((Circuit.tagCell validate id tag).final c).Sound := by
  rw [Circuit.tagCell, final_onCell_validated]
  exact ⟨h.linked.changeCell id fun _ => ⟨rfl, rfl, rfl, rfl, rfl⟩, h.owned.changeCell id _⟩

theorem withoutTags (h : c.Sound) : c.withoutTags.Sound := by
  have hmap : c.withoutTags = c.mapCells fun cell => { cell with tags := [] } := rfl
  rw [hmap]
  exact ⟨h.linked.mapCells fun _ => ⟨rfl, rfl, rfl, rfl, rfl⟩, h.owned.mapCells _⟩

end Sound

/-! ## Changing cells -/

section Reparent

variable {id old parent : CellId} {cell below : Cell} {lower : List CellId}

theorem reparent_of_top (hcell : c.cell id = .ok cell) (htop : cell.parent = none) (parent : CellId) :
    reparent id parent c = .error .rootImmovable c := by
  rw [reparent, bind_of_ok (ask_of_ok hcell), htop]
  rfl

theorem reparent_of_missing (hcell : c.cell id = .ok cell) (hup : cell.parent = some old) {fault : Fault}
    (hparent : c.cell parent = .error fault) : reparent id parent c = .error fault c := by
  rw [reparent, bind_of_ok (ask_of_ok hcell), hup]
  exact bind_of_error (ask_of_error hparent) _

/-- When all four questions are answered, two tests are left. -/
theorem reparent_of_ok (hcell : c.cell id = .ok cell) (hup : cell.parent = some old)
    (hparent : c.cell parent = .ok below) (hsub : c.subtree id = .ok lower) :
    reparent id parent c = (if lower.contains parent then throw (.cyclicParent id parent) else
      if old = parent then return old else do
        onCell old fun cell => { cell with children := cell.children.filter (· ≠ id) }
        onCell parent fun cell => { cell with children := cell.children ++ [id] }
        onCell id fun cell => { cell with parent := some parent }
        return old : Edit CellId) c := by
  rw [reparent, bind_of_ok (ask_of_ok hcell), hup]
  exact (bind_of_ok (ask_of_ok hparent) _).trans (bind_of_ok (ask_of_ok hsub) _)

/-- No cell comes to lie below itself. -/
theorem reparent_of_below (h : c.Linked) (hcell : c.cell id = .ok cell) (hup : cell.parent = some old)
    (hparent : c.cell parent = .ok below) (hsub : c.subtree id = .ok lower)
    (hbelow : Climbs c.parentOf id parent) :
    reparent id parent c = .error (.cyclicParent id parent) c := by
  rw [reparent_of_ok hcell hup hparent hsub,
    if_pos (List.contains_iff_mem.mpr ((mem_subtree_iff h hsub).mpr hbelow))]
  rfl

theorem not_contains_of_subtree (h : c.Linked) (hsub : c.subtree id = .ok lower)
    (hnot : ¬ Climbs c.parentOf id parent) : ¬ lower.contains parent = true := by
  rw [List.contains_iff_mem, mem_subtree_iff h hsub]
  exact hnot

/-- A cell that hangs below its new parent already stays where it is among the children. -/
theorem reparent_of_same (h : c.Linked) (hcell : c.cell id = .ok cell) (hup : cell.parent = some parent)
    (hparent : c.cell parent = .ok below) (hsub : c.subtree id = .ok lower)
    (hnot : ¬ Climbs c.parentOf id parent) : reparent id parent c = .ok parent c := by
  rw [reparent_of_ok hcell hup hparent hsub, if_neg (not_contains_of_subtree h hsub hnot), if_pos rfl]
  rfl

theorem reparent_of_other (h : c.Linked) (hcell : c.cell id = .ok cell) (hup : cell.parent = some old)
    (hparent : c.cell parent = .ok below) (hsub : c.subtree id = .ok lower)
    (hnot : ¬ Climbs c.parentOf id parent) (hne : old ≠ parent) :
    reparent id parent c = .ok old (c.cellMoved id old parent) := by
  have hlive := cell_ok_iff.mp hcell
  obtain ⟨above, habove⟩ := h.parent_live ((parentOf_eq hlive).trans hup)
  -- the new parent is not the old one, so its list is still there as it was
  have hlist : (c.changeCell old fun cell =>
      { cell with children := cell.children.filter (· ≠ id) }).cell? parent = some below := by
    rw [cell?_changeCell, if_neg (Ne.symm hne), cell_ok_iff.mp hparent]
  obtain ⟨moved, hmoved⟩ : ∃ moved, ((c.changeCell old fun cell =>
      { cell with children := cell.children.filter (· ≠ id) }).changeCell parent fun cell =>
      { cell with children := cell.children ++ [id] }).cell? id = some moved := by
    exact live_changeCell (live_changeCell ⟨cell, hlive⟩ _ _) _ _
  rw [reparent_of_ok hcell hup hparent hsub, if_neg (not_contains_of_subtree h hsub hnot), if_neg hne,
    bind_of_ok (onCell_run habove _), bind_of_ok (onCell_run hlist _), bind_of_ok (onCell_run hmoved _)]
  rfl

end Reparent

/-- A cell that is to hang below another either stays, for a fault or because it hangs there already,
or is moved, and then the new parent does not lie below it. -/
theorem reparent_run (h : c.Linked) (id parent : CellId) :
    (∃ fault, reparent id parent c = .error fault c) ∨ reparent id parent c = .ok parent c ∨
    ∃ old above below, c.parentOf id = some old ∧ c.cell? old = some above ∧
      c.cell? parent = some below ∧ old ≠ parent ∧ ¬ Climbs c.parentOf id parent ∧
      reparent id parent c = .ok old (c.cellMoved id old parent) := by
  cases hcell : c.cell id with
  | error fault => exact Or.inl ⟨fault, bind_of_error (ask_of_error hcell) _⟩
  | ok cell =>
  cases hup : cell.parent with
  | none => exact Or.inl ⟨.rootImmovable, reparent_of_top hcell hup parent⟩
  | some old =>
  cases hparent : c.cell parent with
  | error fault => exact Or.inl ⟨fault, reparent_of_missing hcell hup hparent⟩
  | ok below =>
  cases hsub : c.subtree id with
  | error fault =>
    refine Or.inl ⟨fault, ?_⟩
    rw [reparent, bind_of_ok (ask_of_ok hcell), hup]
    exact (bind_of_ok (ask_of_ok hparent) _).trans (bind_of_error (ask_of_error hsub) _)
  | ok lower =>
  by_cases hbelow : Climbs c.parentOf id parent
  · exact Or.inl ⟨.cyclicParent id parent, reparent_of_below h hcell hup hparent hsub hbelow⟩
  by_cases hstay : old = parent
  · subst hstay
    exact Or.inr (Or.inl (reparent_of_same h hcell hup hparent hsub hbelow))
  · have hold : c.parentOf id = some old := (parentOf_eq (cell_ok_iff.mp hcell)).trans hup
    obtain ⟨above, habove⟩ := h.parent_live hold
    exact Or.inr (Or.inr ⟨old, above, below, hold, habove, cell_ok_iff.mp hparent, hstay, hbelow,
      reparent_of_other h hcell hup hparent hsub hbelow hstay⟩)

namespace Sound

theorem reparent? (h : c.Sound) (id : CellId) (parent : Option CellId) :
    ((Circuit.reparent? id parent).final c).Sound := by
  rcases parent with - | parent
  · exact h
  · refine final_bind ?_ fun _ _ _ hd => hd
    rcases reparent_run h.linked id parent with ⟨fault, hrun⟩ | hrun |
      ⟨old, above, below, hup, hold, hparent, hne, hnot, hrun⟩
    · rw [final_of_error hrun]
      exact h
    · rw [final_of_ok hrun]
      exact h
    · rw [final_of_ok hrun]
      exact ⟨h.linked.moveCell hup hold hparent hne hnot,
        ((h.owned.changeCell _ _).changeCell _ _).changeCell _ _⟩

theorem modifyCell (h : c.Sound) (validate : Bool) (id : CellId) (patch : CellPatch) :
    ((Circuit.modifyCell validate id patch).final c).Sound := by
  -- whatever became of the parent, the rest touches no link
  refine final_bind (h.reparent? id patch.parent) fun parents d _ hd => ?_
  rw [final_onCell_validated]
  exact ⟨hd.linked.changeCell id (Cell.sameLinks_restyle patch), hd.owned.changeCell id _⟩

end Sound

/-! ## Changing wires -/

/-- The circuit with the source of a wire moved from one cell to another. -/
def sourceMoved (c : Circuit) (id : WireId) (old new : CellId) : Circuit :=
  ((c.changeCell old fun cell => { cell with outputs := cell.outputs.filter (· ≠ id) }).changeCell new
    fun cell => { cell with outputs := cell.outputs ++ [id] }).changeWire id fun wire =>
    { wire with source := new }

/-- The circuit with the target of a wire moved from one cell to another. -/
def targetMoved (c : Circuit) (id : WireId) (old new : CellId) : Circuit :=
  ((c.changeCell old fun cell => { cell with inputs := cell.inputs.filter (· ≠ id) }).changeCell new
    fun cell => { cell with inputs := cell.inputs ++ [id] }).changeWire id fun wire =>
    { wire with target := new }

theorem wire?_sourceMoved {c : Circuit} {id : WireId} {wire : Wire} (h : c.wire? id = some wire)
    (old new : CellId) : (c.sourceMoved id old new).wire? id = some { wire with source := new } := by
  rw [sourceMoved, wire?_changeWire, if_pos rfl, wire?_changeCell, wire?_changeCell, h]
  rfl

theorem wire?_targetMoved {c : Circuit} {id : WireId} {wire : Wire} (h : c.wire? id = some wire)
    (old new : CellId) : (c.targetMoved id old new).wire? id = some { wire with target := new } := by
  rw [targetMoved, wire?_changeWire, if_pos rfl, wire?_changeCell, wire?_changeCell, h]
  rfl

/-- The source of a wire either stays, for a fault or because no other cell is given, or it is moved. -/
theorem moveSource_run (h : c.Linked) {id : WireId} {wire : Wire} (hwire : c.wire? id = some wire)
    (source : Option CellId) :
    (∃ new fault, source = some new ∧ new ≠ wire.source ∧ c.cell? new = none ∧
      moveSource id wire.source source c = .error fault c) ∨
    (∃ touched, (∀ new ∈ source, new = wire.source) ∧
      moveSource id wire.source source c = .ok touched c) ∨
    ∃ new left reached, source = some new ∧ c.cell? wire.source = some left ∧
      c.cell? new = some reached ∧ wire.source ≠ new ∧
      moveSource id wire.source source c = .ok [wire.source, new] (c.sourceMoved id wire.source new) := by
  rcases source with - | new
  · exact Or.inr (Or.inl ⟨[], by simp, rfl⟩)
  by_cases hstay : new = wire.source
  · refine Or.inr (Or.inl ⟨[], by simpa using hstay, ?_⟩)
    rw [moveSource, if_pos hstay]
    rfl
  cases hnew : c.cell new with
  | error fault =>
    refine Or.inl ⟨new, fault, rfl, hstay, cell?_of_error hnew, ?_⟩
    rw [moveSource, if_neg hstay]
    exact bind_of_error (ask_of_error hnew) _
  | ok reached =>
    have hreached := cell_ok_iff.mp hnew
    obtain ⟨left, hleft⟩ := h.source_live hwire
    refine Or.inr (Or.inr ⟨new, left, reached, rfl, hleft, hreached, Ne.symm hstay, ?_⟩)
    have hnext : (c.changeCell wire.source fun cell =>
        { cell with outputs := cell.outputs.filter (· ≠ id) }).cell? new = some reached := by
      rw [cell?_changeCell, if_neg hstay, hreached]
    have hsame : ((c.changeCell wire.source fun cell =>
        { cell with outputs := cell.outputs.filter (· ≠ id) }).changeCell new fun cell =>
        { cell with outputs := cell.outputs ++ [id] }).wire? id = some wire := by
      rw [wire?_changeCell, wire?_changeCell, hwire]
    rw [moveSource, if_neg hstay, bind_of_ok (ask_of_ok hnew), bind_of_ok (onCell_run hleft _),
      bind_of_ok (onCell_run hnext _), bind_of_ok (onWire_run hsame _)]
    rfl

/-- The target of a wire either stays, for a fault or because no other cell is given, or it is moved. -/
theorem moveTarget_run (h : c.Linked) {id : WireId} {wire : Wire} (hwire : c.wire? id = some wire)
    (target : Option CellId) :
    (∃ new fault, target = some new ∧ new ≠ wire.target ∧ c.cell? new = none ∧
      moveTarget id wire.target target c = .error fault c) ∨
    (∃ touched, (∀ new ∈ target, new = wire.target) ∧
      moveTarget id wire.target target c = .ok touched c) ∨
    ∃ new left reached, target = some new ∧ c.cell? wire.target = some left ∧
      c.cell? new = some reached ∧ wire.target ≠ new ∧
      moveTarget id wire.target target c = .ok [wire.target, new] (c.targetMoved id wire.target new) := by
  rcases target with - | new
  · exact Or.inr (Or.inl ⟨[], by simp, rfl⟩)
  by_cases hstay : new = wire.target
  · refine Or.inr (Or.inl ⟨[], by simpa using hstay, ?_⟩)
    rw [moveTarget, if_pos hstay]
    rfl
  cases hnew : c.cell new with
  | error fault =>
    refine Or.inl ⟨new, fault, rfl, hstay, cell?_of_error hnew, ?_⟩
    rw [moveTarget, if_neg hstay]
    exact bind_of_error (ask_of_error hnew) _
  | ok reached =>
    have hreached := cell_ok_iff.mp hnew
    obtain ⟨left, hleft⟩ := h.target_live hwire
    refine Or.inr (Or.inr ⟨new, left, reached, rfl, hleft, hreached, Ne.symm hstay, ?_⟩)
    have hnext : (c.changeCell wire.target fun cell =>
        { cell with inputs := cell.inputs.filter (· ≠ id) }).cell? new = some reached := by
      rw [cell?_changeCell, if_neg hstay, hreached]
    have hsame : ((c.changeCell wire.target fun cell =>
        { cell with inputs := cell.inputs.filter (· ≠ id) }).changeCell new fun cell =>
        { cell with inputs := cell.inputs ++ [id] }).wire? id = some wire := by
      rw [wire?_changeCell, wire?_changeCell, hwire]
    rw [moveTarget, if_neg hstay, bind_of_ok (ask_of_ok hnew), bind_of_ok (onCell_run hleft _),
      bind_of_ok (onCell_run hnext _), bind_of_ok (onWire_run hsame _)]
    rfl

namespace Sound

/-- Moving a source keeps the circuit sound, and the wire keeps its target. -/
theorem moveSource (h : c.Sound) {id : WireId} {wire : Wire} (hwire : c.wire? id = some wire)
    (source : Option CellId) :
    ((Circuit.moveSource id wire.source source).final c).Sound ∧
      ∃ moved, ((Circuit.moveSource id wire.source source).final c).wire? id = some moved ∧
        moved.target = wire.target := by
  rcases moveSource_run h.linked hwire source with ⟨_, fault, -, -, -, hrun⟩ | ⟨touched, -, hrun⟩ |
    ⟨new, left, reached, -, hleft, hreached, hne, hrun⟩
  · rw [final_of_error hrun]
    exact ⟨h, wire, hwire, rfl⟩
  · rw [final_of_ok hrun]
    exact ⟨h, wire, hwire, rfl⟩
  · rw [final_of_ok hrun]
    exact ⟨⟨h.linked.moveSource hwire hleft hreached hne,
      ((h.owned.changeCell _ _).changeCell _ _).changeWire _ _⟩, { wire with source := new },
      wire?_sourceMoved hwire _ _, rfl⟩

theorem moveTarget (h : c.Sound) {id : WireId} {wire : Wire} (hwire : c.wire? id = some wire)
    (target : Option CellId) : ((Circuit.moveTarget id wire.target target).final c).Sound := by
  rcases moveTarget_run h.linked hwire target with ⟨_, fault, -, -, -, hrun⟩ | ⟨touched, -, hrun⟩ |
    ⟨new, left, reached, -, hleft, hreached, hne, hrun⟩
  · rw [final_of_error hrun]
    exact h
  · rw [final_of_ok hrun]
    exact h
  · rw [final_of_ok hrun]
    exact ⟨h.linked.moveTarget hwire hleft hreached hne,
      ((h.owned.changeCell _ _).changeCell _ _).changeWire _ _⟩

theorem modifyWire (h : c.Sound) (validate : Bool) (id : WireId) (patch : WirePatch) :
    ((Circuit.modifyWire validate id patch).final c).Sound := by
  cases hask : c.wire id with
  | error fault =>
    rw [Circuit.modifyWire, final_bind_of_error (ask_of_error hask)]
    exact h
  | ok wire =>
    rw [Circuit.modifyWire, final_bind_of_ok (ask_of_ok hask)]
    obtain ⟨hmoved, now, hnow, htarget⟩ := h.moveSource (wire_ok_iff.mp hask) patch.source
    refine final_bind hmoved fun sources d hrun hd => ?_
    rw [final_of_ok hrun] at hnow
    rw [← htarget]
    -- here the source may be moved already, and a missing target stops the edit
    refine final_bind (hd.moveTarget hnow patch.target) fun targets e _ he => ?_
    rw [final_onWire_validated]
    exact ⟨he.linked.changeWire id fun _ => ⟨rfl, rfl, rfl⟩, he.owned.changeWire id _⟩

end Sound

end Circuit

end PulseCircuit
