import PulseCircuit.Proofs.Steps

/-!
# Which edits count on

The pool counts on only if an edit asks it for an id. So of all edits only those that create a row can
move a counter, and they move it only if no id of that kind was given back.

* `tolerant_sameCounters`: edits that create nothing move no counter;
* `sameCounters_createCell`, `sameCounters_createWire`: those that do move what taking the id moves;
* `counters_createCell`, `counters_createWire`: one counter stands, and the other one too while an id is free.
-/

namespace PulseCircuit

namespace Circuit

open Edit Running

/-- Both counters stand where they stood. -/
def SameCounters (c d : Circuit) : Prop :=
  d.ids.nextCell = c.ids.nextCell ∧ d.ids.nextWire = c.ids.nextWire

theorem tolerant_sameCounters : Tolerant SameCounters where
  trans := fun h h' => ⟨h'.1.trans h.1, h'.2.trans h.2⟩
  changed := fun _ _ hids => by rw [SameCounters, hids]; exact ⟨rfl, rfl⟩
  retired := by
    intro removal id c
    unfold Circuit.retired
    cases c.live.get? id with
    | none => exact ⟨rfl, rfl⟩
    | some row =>
      cases removal with
      | delete =>
        obtain ⟨hcell, hwire, -⟩ := c.ids.counters_release id
        exact ⟨hcell, hwire⟩
      | archive => exact ⟨rfl, rfl⟩
  purged := by
    intro c
    obtain ⟨hcell, hwire, -⟩ := IdPool.counters_foldl_release c.ids.held { c.ids with held := [] }
    exact ⟨hcell, hwire⟩

theorem SameCounters.inRange {c d : Circuit} (h : SameCounters c d) (hd : d.ids.InRange) : c.ids.InRange := by
  rw [IdPool.InRange, h.1, h.2] at hd
  exact hd

variable {c : Circuit}

/-! ## Creations -/

/-- Below a live cell an id is taken, and what is done with it afterwards moves no counter. -/
theorem sameCounters_createCell {parent : CellId} {above : Cell} (hparent : c.cell parent = .ok above)
    (validate : Bool) (kind : CellKind) (position : Position) :
    SameCounters { c with ids := c.ids.takeCell.2 } ((createCell validate parent kind position).final c) := by
  rw [final_of_run (createCell_run (cell_ok_iff.mp hparent) ..), final_validated_bind, SameCounters, ids_changeCell]
  exact ⟨rfl, rfl⟩

/-- The new row may hide an end of the wire, so the edit need not run to its end. Its id is taken all the same. -/
theorem sameCounters_createWire {source target : CellId} {left reached : Cell} (hsource : c.cell source = .ok left)
    (htarget : c.cell target = .ok reached) (validate : Bool) (colour : ColourFilter) (timing : Timing) :
    SameCounters { c with ids := c.ids.takeWire.2 }
      ((createWire validate source target colour timing).final c) := by
  have hrest : Leads SameCounters (do
      onCell source fun cell => { cell with outputs := cell.outputs ++ [c.ids.takeWire.1] }
      onCell target fun cell => { cell with inputs := cell.inputs ++ [c.ids.takeWire.1] }
      validated validate [c.ids.takeWire.1, source, target]
      return c.ids.takeWire.1) := by
    have htolerant := tolerant_sameCounters
    exact htolerant.bind (htolerant.onCell _ _) fun _ => htolerant.bind (htolerant.onCell _ _) fun _ =>
      htolerant.bind (htolerant.validated _ _) fun _ => htolerant.pure _
  rw [createWire, final_bind_of_ok (ask_of_ok hsource), final_bind_of_ok (ask_of_ok htarget),
    final_bind_of_ok takeWireId_run, final_bind_of_ok (putRow_run ..)]
  exact hrest ({ c with ids := c.ids.takeWire.2 }.put c.ids.takeWire.1
    (.wire ⟨c.ids.takeWire.1, source, target, colour, timing⟩))

/-- A new cell gets a new id only if no cell id was given back. -/
theorem counters_createCell (validate : Bool) (parent : CellId) (kind : CellKind)
    (position : Position) :
    (((createCell validate parent kind position).final c).ids.nextCell ≠ c.ids.nextCell →
      c.ids.freeCells = []) ∧
    ((createCell validate parent kind position).final c).ids.nextWire = c.ids.nextWire := by
  cases hparent : c.cell parent with
  | error fault =>
    rw [createCell, final_bind_of_error (ask_of_error hparent)]
    exact ⟨fun hne => absurd rfl hne, rfl⟩
  | ok above =>
    obtain ⟨hcell, hwire⟩ := sameCounters_createCell hparent validate kind position
    rw [hcell, hwire]
    show (c.ids.takeCell.2.nextCell ≠ _ → _) ∧ c.ids.takeCell.2.nextWire = _
    rcases c.ids.takeCell_cases with ⟨ids, id, -, htake⟩ | ⟨hnil, htake⟩
    · rw [htake]
      exact ⟨fun hne => absurd rfl hne, rfl⟩
    · rw [htake]
      exact ⟨fun _ => hnil, rfl⟩

/-- A new wire gets a new id only if no wire id was given back. -/
theorem counters_createWire (validate : Bool) (source target : CellId) (colour : ColourFilter)
    (timing : Timing) :
    ((createWire validate source target colour timing).final c).ids.nextCell = c.ids.nextCell ∧
    (((createWire validate source target colour timing).final c).ids.nextWire ≠ c.ids.nextWire →
      c.ids.freeWires = []) := by
  cases hsource : c.cell source with
  | error fault =>
    rw [createWire, final_bind_of_error (ask_of_error hsource)]
    exact ⟨rfl, fun hne => absurd rfl hne⟩
  | ok left =>
  cases htarget : c.cell target with
  | error fault =>
    rw [createWire, final_bind_of_ok (ask_of_ok hsource), final_bind_of_error (ask_of_error htarget)]
    exact ⟨rfl, fun hne => absurd rfl hne⟩
  | ok reached =>
    obtain ⟨hcell, hwire⟩ := sameCounters_createWire hsource htarget validate colour timing
    rw [hcell, hwire]
    show c.ids.takeWire.2.nextCell = _ ∧ (c.ids.takeWire.2.nextWire ≠ _ → _)
    rcases c.ids.takeWire_cases with ⟨ids, id, -, htake⟩ | ⟨hnil, htake⟩
    · rw [htake]
      exact ⟨rfl, fun hne => absurd rfl hne⟩
    · rw [htake]
      exact ⟨rfl, fun _ => hnil⟩

end Circuit

end PulseCircuit
