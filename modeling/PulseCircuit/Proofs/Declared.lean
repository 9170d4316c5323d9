import Mathlib.Data.List.Induction
import PulseCircuit.Proofs.Blueprint
import PulseCircuit.Proofs.Collecting
import PulseCircuit.Proofs.Faults

/-!
# Scenes are built as declared

A scene is built exactly if its declarations fit each other (`WellDeclared`), and then what is built is its
blueprint. Otherwise the first declaration that does not fit is what the error is about (`Rejects`). The edits and
the checks after them never fail.

Building is three loops one after the other. Each step takes the blueprint of what was declared so far to the
blueprint with one more declaration: `declareCell_run`, `declareWire_run`, `declarePulse_run`.
-/

namespace PulseCircuit

/-! ## Loops with a first failure -/

section Loops

variable {ε α β : Type}

/-- What can be kept from one entry to the next holds of a list, or there is a first entry at which it cannot. -/
theorem exists_first {P : List α → Prop} {Q : List α → α → Prop} (hnil : P [])
    (hstep : ∀ before x, P before → P (before ++ [x]) ∨ Q before x) (xs : List α) :
    P xs ∨ ∃ before x after, xs = before ++ x :: after ∧ P before ∧ Q before x := by
  induction xs using List.reverseRecOn with
  | nil => exact Or.inl hnil
  | append_singleton xs x ih =>
    rcases ih with hxs | ⟨before, y, after, rfl, hfirst⟩
    · rcases hstep xs x hxs with hkept | hlost
      · exact Or.inl hkept
      · exact Or.inr ⟨xs, x, [], rfl, hxs, hlost⟩
    · exact Or.inr ⟨before, y, after ++ [x], by rw [List.append_assoc, List.cons_append], hfirst⟩

/-- A loop in which each step leads to the next of some states. -/
theorem foldlM_states {f : β → α → Except ε β} (state : List α → β) {P : List α → Prop} (Inv : β → Prop)
    (hstart : Inv (state [])) (hback : ∀ before x, P (before ++ [x]) → P before)
    (hstep : ∀ before x, P (before ++ [x]) → Inv (state before) →
      f (state before) x = .ok (state (before ++ [x])) ∧ Inv (state (before ++ [x])))
    {xs : List α} (h : P xs) : xs.foldlM f (state []) = .ok (state xs) ∧ Inv (state xs) := by
  induction xs using List.reverseRecOn with
  | nil => exact ⟨rfl, hstart⟩
  | append_singleton xs x ih =>
    obtain ⟨hrun, hinv⟩ := ih (hback xs x h)
    obtain ⟨hnext, hinv⟩ := hstep xs x h hinv
    refine ⟨?_, hinv⟩
    rw [List.foldlM_append, hrun]
    show (f (state xs) x).bind pure = _
    rw [hnext]
    rfl

/-- A loop ends with the failure of the first step that fails. -/
theorem foldlM_failure {f : β → α → Except ε β} {before after : List α} {x : α} {b b' : β} {e : ε}
    (hbefore : before.foldlM f b = .ok b') (hx : f b' x = .error e) :
    (before ++ x :: after).foldlM f b = .error e := by
  rw [List.foldlM_append, hbefore]
  show (x :: after).foldlM f b' = _
  rw [List.foldlM_cons, hx]
  rfl

end Loops

namespace Scene

open Circuit Edit Running

/-! ## Declarations that fit -/

/-- The declarations of a scene fit each other. -/
structure WellDeclared (scene : Scene) : Prop where
  distinct : (scene.cells.map (·.name)).Nodup
  not_root : ∀ cell ∈ scene.cells, cell.name ≠ rootName
  parents : ∀ before cell after, scene.cells = before ++ cell :: after →
    ∀ parent ∈ cell.parent, parent ∈ knownNames before
  wires : ∀ wire ∈ scene.wires,
    wire.source ∈ knownNames scene.cells ∧ wire.target ∈ knownNames scene.cells
  pulses : ∀ pulse ∈ scene.pulses, pulse.cell ∈ knownNames scene.cells

/-- Why a cell does not fit those before it. Its name is looked at before its parent. -/
inductive CellFlaw (before : List DeclaredCell) (cell : DeclaredCell) : SceneError → Prop
  | twice (hname : cell.name ∈ knownNames before) : CellFlaw before cell (.declaredTwice cell.name)
  | orphan {parent} (hname : cell.name ∉ knownNames before) (hparent : cell.parent = some parent)
      (hunknown : parent ∉ knownNames before) : CellFlaw before cell (.unknownParent cell.name parent)

/-- Why a wire does not fit the cells. Its source is looked at before its target. -/
inductive WireFlaw (cells : List DeclaredCell) (wire : DeclaredWire) : SceneError → Prop
  | source (hsource : wire.source ∉ knownNames cells) : WireFlaw cells wire (.unknownSource wire.source)
  | target (hsource : wire.source ∈ knownNames cells) (htarget : wire.target ∉ knownNames cells) :
      WireFlaw cells wire (.unknownTarget wire.target)

/-- The error is about the first declaration that does not fit, where cells come before wires and wires before
pulses. -/
inductive Rejects (scene : Scene) : SceneError → Prop
  | cell {before cell after e} (hcells : scene.cells = before ++ cell :: after)
      (hbefore : WellDeclared ⟨before, [], []⟩) (hflaw : CellFlaw before cell e) : Rejects scene e
  | wire {before wire after e} (hwires : scene.wires = before ++ wire :: after)
      (hbefore : WellDeclared ⟨scene.cells, before, []⟩) (hflaw : WireFlaw scene.cells wire e) : Rejects scene e
  | pulse {before pulse after} (hpulses : scene.pulses = before ++ pulse :: after)
      (hbefore : WellDeclared ⟨scene.cells, scene.wires, before⟩)
      (hunknown : pulse.cell ∉ knownNames scene.cells) : Rejects scene (.unknownFired pulse.cell)

section Fitting

variable {cells : List DeclaredCell} {wires : List DeclaredWire} {pulses : List DeclaredPulse}

theorem mem_knownNames {name : String} :
    name ∈ knownNames cells ↔ name = rootName ∨ ∃ cell ∈ cells, cell.name = name := by
  rw [knownNames, List.mem_cons, List.mem_map]

theorem wellDeclared_empty : WellDeclared ⟨[], [], []⟩ := by
  refine ⟨.nil, by simp, fun before cell after h => ?_, by simp, by simp⟩
  simp at h

/-- A cell without a parent hangs below the root, which is known. -/
theorem above_mem_of_parent {cell : DeclaredCell} (h : ∀ parent ∈ cell.parent, parent ∈ knownNames cells) :
    cell.above ∈ knownNames cells := by
  rw [DeclaredCell.above]
  cases hparent : cell.parent with
  | none => exact List.mem_cons_self
  | some parent => exact h parent hparent

namespace WellDeclared

theorem nodup {scene : Scene} (h : scene.WellDeclared) : (knownNames scene.cells).Nodup := by
  refine List.nodup_cons.mpr ⟨fun hmem => ?_, h.distinct⟩
  obtain ⟨cell, hcell, hname⟩ := List.mem_map.mp hmem
  exact h.not_root cell hcell hname

/-- Less declared fits as well, from the last declaration back. -/
theorem onlyWires {scene : Scene} (h : scene.WellDeclared) : WellDeclared ⟨scene.cells, scene.wires, []⟩ :=
  { h with pulses := by simp }

theorem onlyCells {scene : Scene} (h : scene.WellDeclared) : WellDeclared ⟨scene.cells, [], []⟩ :=
  { h with wires := by simp, pulses := by simp }

theorem above_mem {scene : Scene} (h : scene.WellDeclared) : ∀ cell ∈ scene.cells,
    cell.above ∈ knownNames scene.cells := by
  intro cell hcell
  obtain ⟨before, after, hcells⟩ := List.append_of_mem hcell
  have habove := above_mem_of_parent (h.parents before cell after hcells)
  rw [hcells, mem_knownNames]
  exact (mem_knownNames.mp habove).imp_right fun ⟨other, hother, hname⟩ =>
    ⟨other, List.mem_append_left _ hother, hname⟩

end WellDeclared

theorem wellDeclared_cell_iff {cell : DeclaredCell} : WellDeclared ⟨cells ++ [cell], [], []⟩ ↔
    WellDeclared ⟨cells, [], []⟩ ∧ cell.name ∉ knownNames cells ∧
      ∀ parent ∈ cell.parent, parent ∈ knownNames cells := by
  constructor
  · intro h
    obtain ⟨hnodup, hnew⟩ := nodup_knownNames_concat.mp h.nodup
    refine ⟨⟨(List.nodup_cons.mp hnodup).2, ?_, ?_, by simp, by simp⟩, hnew, h.parents cells cell [] rfl⟩
    · exact fun other hother => h.not_root other (List.mem_append_left _ hother)
    · rintro before other after (rfl : cells = _)
      exact h.parents before other (after ++ [cell]) (by simp)
  · rintro ⟨h, hnew, hparent⟩
    have hnodup := nodup_knownNames_concat.mpr ⟨h.nodup, hnew⟩
    obtain ⟨hroot, hdistinct⟩ := List.nodup_cons.mp hnodup
    refine ⟨hdistinct, fun other hother hname => hroot (List.mem_map.mpr ⟨other, hother, hname⟩), ?_,
      by simp, by simp⟩
    intro before other after hcells
    -- the cell is the new one, or was declared before it
    rcases List.eq_nil_or_concat' after with rfl | ⟨rest, last, rfl⟩
    · obtain ⟨rfl, hlast⟩ := List.append_inj' hcells rfl
      cases hlast
      exact hparent
    · rw [← List.cons_append, ← List.append_assoc] at hcells
      exact h.parents before other rest (List.append_inj' hcells rfl).1

theorem wellDeclared_wire_iff {wire : DeclaredWire} : WellDeclared ⟨cells, wires ++ [wire], []⟩ ↔
    WellDeclared ⟨cells, wires, []⟩ ∧ wire.source ∈ knownNames cells ∧ wire.target ∈ knownNames cells := by
  constructor
  · intro h
    have hwire := h.wires wire (List.mem_append_right _ List.mem_cons_self)
    exact ⟨{ h with wires := fun other hother => h.wires other (List.mem_append_left _ hother) }, hwire⟩
  · rintro ⟨h, hends⟩
    refine { h with wires := fun other hother => ?_ }
    rcases List.mem_append.mp hother with hother | hother
    · exact h.wires other hother
    · rw [List.mem_singleton.mp hother]
      exact hends

theorem wellDeclared_pulse_iff {pulse : DeclaredPulse} : WellDeclared ⟨cells, wires, pulses ++ [pulse]⟩ ↔
    WellDeclared ⟨cells, wires, pulses⟩ ∧ pulse.cell ∈ knownNames cells := by
  constructor
  · intro h
    have hpulse := h.pulses pulse (List.mem_append_right _ List.mem_cons_self)
    exact ⟨{ h with pulses := fun other hother => h.pulses other (List.mem_append_left _ hother) }, hpulse⟩
  · rintro ⟨h, hknown⟩
    refine { h with pulses := fun other hother => ?_ }
    rcases List.mem_append.mp hother with hother | hother
    · exact h.pulses other hother
    · rw [List.mem_singleton.mp hother]
      exact hknown

theorem cell_fits_or_flaw {cell : DeclaredCell} (hbefore : WellDeclared ⟨cells, [], []⟩) :
    WellDeclared ⟨cells ++ [cell], [], []⟩ ∨ ∃ e, CellFlaw cells cell e := by
  by_cases hname : cell.name ∈ knownNames cells
  · exact Or.inr ⟨_, .twice hname⟩
  cases hparent : cell.parent with
  | none => exact Or.inl (wellDeclared_cell_iff.mpr ⟨hbefore, hname, by simp [hparent]⟩)
  | some parent =>
    by_cases hknown : parent ∈ knownNames cells
    · exact Or.inl (wellDeclared_cell_iff.mpr ⟨hbefore, hname, by simpa [hparent] using hknown⟩)
    · exact Or.inr ⟨_, .orphan hname hparent hknown⟩

theorem wire_fits_or_flaw {wire : DeclaredWire} (hbefore : WellDeclared ⟨cells, wires, []⟩) :
    WellDeclared ⟨cells, wires ++ [wire], []⟩ ∨ ∃ e, WireFlaw cells wire e := by
  by_cases hsource : wire.source ∈ knownNames cells
  · by_cases htarget : wire.target ∈ knownNames cells
    · exact Or.inl (wellDeclared_wire_iff.mpr ⟨hbefore, hsource, htarget⟩)
    · exact Or.inr ⟨_, .target hsource htarget⟩
  · exact Or.inr ⟨_, .source hsource⟩

theorem pulse_fits_or {pulse : DeclaredPulse} (hbefore : WellDeclared ⟨cells, wires, pulses⟩) :
    WellDeclared ⟨cells, wires, pulses ++ [pulse]⟩ ∨ pulse.cell ∉ knownNames cells := by
  by_cases hknown : pulse.cell ∈ knownNames cells
  · exact Or.inl (wellDeclared_pulse_iff.mpr ⟨hbefore, hknown⟩)
  · exact Or.inr hknown

/-- Either all declarations fit, or there is a first one that does not. -/
theorem wellDeclared_or_rejects (scene : Scene) : scene.WellDeclared ∨ ∃ e, scene.Rejects e := by
  rcases exists_first (P := fun cells => WellDeclared ⟨cells, [], []⟩) wellDeclared_empty
      (fun _ _ => cell_fits_or_flaw) scene.cells with hcells | ⟨_, _, _, hcells, hbefore, e, hflaw⟩
  swap
  · exact Or.inr ⟨e, .cell hcells hbefore hflaw⟩
  rcases exists_first (P := fun wires => WellDeclared ⟨scene.cells, wires, []⟩) hcells
      (fun _ _ => wire_fits_or_flaw) scene.wires with hwires | ⟨_, _, _, hwires, hbefore, e, hflaw⟩
  swap
  · exact Or.inr ⟨e, .wire hwires hbefore hflaw⟩
  rcases exists_first (P := fun pulses => WellDeclared ⟨scene.cells, scene.wires, pulses⟩) hwires
      (fun _ _ => pulse_fits_or) scene.pulses with hpulses | ⟨_, _, _, hpulses, hbefore, hunknown⟩
  swap
  · exact Or.inr ⟨_, .pulse hpulses hbefore hunknown⟩
  exact Or.inl hpulses

end Fitting

/-! ## Building -/

/-- The names of the cells, with their ids. -/
def namesOf (cells : List DeclaredCell) : Table String CellId :=
  .ofList ((sketches cells).map fun sketch => (sketch.name, sketch.id))

/-- The blueprint of a scene. -/
def blueprint (scene : Scene) : NamedCircuit :=
  ⟨sheet scene.cells scene.wires scene.attached, namesOf scene.cells⟩

section Names

variable {cells : List DeclaredCell} {name : String}

theorem rows_namesOf (hnodup : (knownNames cells).Nodup) :
    (namesOf cells).rows = (sketches cells).map fun sketch => (sketch.name, sketch.id) := by
  refine Table.rows_foldl_insert .empty ?_
  rwa [List.map_map, Table.keys, Table.empty, List.map_nil, List.nil_append, ← names_sketches] at *

theorem keys_namesOf (hnodup : (knownNames cells).Nodup) : (namesOf cells).keys = knownNames cells := by
  rw [Table.keys, rows_namesOf hnodup, List.map_map, ← names_sketches]
  rfl

theorem get?_namesOf (hnodup : (knownNames cells).Nodup) (h : name ∈ knownNames cells) :
    (namesOf cells).get? name = some (seatOf cells name) := by
  rw [Table.get?_eq_some_iff, rows_namesOf hnodup]
  obtain ⟨sketch, hsketch, rfl⟩ := exists_sketch h
  exact List.mem_map.mpr ⟨sketch, hsketch, by rw [Sketch.id_eq hnodup hsketch]⟩

theorem get?_namesOf_of_unknown (hnodup : (knownNames cells).Nodup) (h : name ∉ knownNames cells) :
    (namesOf cells).get? name = none := by
  rwa [Table.get?_eq_none_iff, keys_namesOf hnodup]

end Names

section Steps

variable {cells : List DeclaredCell} {wires : List DeclaredWire} {pulses : List DeclaredPulse}

theorem editing_of_ok {α : Type} {n : NamedCircuit} {edit : Edit α} {a : α} {d : Circuit}
    (h : edit n.circuit = .ok a d) (explain : Fault → SceneError) :
    n.editing edit explain = .ok (a, { n with circuit := d }) := by
  rw [NamedCircuit.editing, h]

theorem named_of_known {scene : Scene} (hnodup : (knownNames scene.cells).Nodup) {name : String}
    (h : name ∈ knownNames scene.cells) (unknown : SceneError) :
    (blueprint scene).named name unknown = .ok (seatOf scene.cells name) := by
  rw [NamedCircuit.named, blueprint, get?_namesOf hnodup h]

theorem named_of_unknown {scene : Scene} (hnodup : (knownNames scene.cells).Nodup) {name : String}
    (h : name ∉ knownNames scene.cells) (unknown : SceneError) :
    (blueprint scene).named name unknown = .error unknown := by
  rw [NamedCircuit.named, blueprint, get?_namesOf_of_unknown hnodup h]

/-- The edit for a cell draws it on the blueprint. -/
theorem createCell_blueprint (validate : Bool) {cell : DeclaredCell} (h : WellDeclared ⟨cells ++ [cell], [], []⟩)
    (hsound : (blueprint ⟨cells, [], []⟩).circuit.Sound) :
    createCell validate (seatOf cells cell.above) cell.kind cell.position (blueprint ⟨cells, [], []⟩).circuit =
        .ok (cellAt (cells.length + 1)) (blueprint ⟨cells ++ [cell], [], []⟩).circuit ∧
      (blueprint ⟨cells ++ [cell], [], []⟩).circuit.Sound := by
  obtain ⟨hbefore, hname, hparent⟩ := wellDeclared_cell_iff.mp h
  have habove := above_mem_of_parent hparent
  obtain ⟨above, hlive⟩ := exists_cell?_sheet hbefore.nodup habove
  have hnext := hsound.createCell validate (seatOf cells cell.above) cell.kind cell.position
  have hrun := (Sound.run_of_validated hnext (createCell_run hlive validate cell.kind cell.position)).trans
    (congrArg (EStateM.Result.ok _) (sheet_add_cell hbefore.nodup hbefore.above_mem habove hname))
  rw [final_of_ok hrun] at hnext
  exact ⟨hrun, hnext⟩

theorem createWire_blueprint (validate : Bool) {wire : DeclaredWire}
    (h : WellDeclared ⟨cells, wires ++ [wire], []⟩) (hsound : (blueprint ⟨cells, wires, []⟩).circuit.Sound) :
    createWire validate (seatOf cells wire.source) (seatOf cells wire.target) wire.colour wire.timing
        (blueprint ⟨cells, wires, []⟩).circuit =
        .ok (wireAt (wires.length + 1)) (blueprint ⟨cells, wires ++ [wire], []⟩).circuit ∧
      (blueprint ⟨cells, wires ++ [wire], []⟩).circuit.Sound := by
  obtain ⟨hbefore, hsource, htarget⟩ := wellDeclared_wire_iff.mp h
  obtain ⟨left, hleft⟩ := exists_cell?_sheet hbefore.nodup hsource
  obtain ⟨reached, hreached⟩ := exists_cell?_sheet hbefore.nodup htarget
  have hnext := hsound.createWire validate (seatOf cells wire.source) (seatOf cells wire.target) wire.colour
    wire.timing
  have hrun := (Sound.run_of_validated hnext
      (createWire_run hsound.owned hleft hreached validate wire.colour wire.timing)).trans
    (congrArg (EStateM.Result.ok _) (sheet_add_wire hbefore.nodup hsource htarget))
  rw [final_of_ok hrun] at hnext
  exact ⟨hrun, hnext⟩

theorem fire_blueprint (validate : Bool) {pulse : DeclaredPulse}
    (h : WellDeclared ⟨cells, wires, pulses ++ [pulse]⟩)
    (hsound : (blueprint ⟨cells, wires, pulses⟩).circuit.Sound) :
    fire validate (seatOf cells pulse.cell) pulse.colour (.ofKind pulse.pulse)
        (blueprint ⟨cells, wires, pulses⟩).circuit =
        .ok () (blueprint ⟨cells, wires, pulses ++ [pulse]⟩).circuit ∧
      (blueprint ⟨cells, wires, pulses ++ [pulse]⟩).circuit.Sound := by
  obtain ⟨hbefore, hknown⟩ := wellDeclared_pulse_iff.mp h
  obtain ⟨cell, hlive⟩ := exists_cell?_sheet hbefore.nodup hknown
  have hnext := hsound.setPulse validate (seatOf cells pulse.cell) pulse.colour (some (.ofKind pulse.pulse))
  have hlinks : ∀ cell : Cell, Cell.SameLinks
      { cell with fire := cell.fire.set pulse.colour (some (.ofKind pulse.pulse)) } cell :=
    fun _ => ⟨rfl, rfl, rfl, rfl, rfl⟩
  have hrun := (hsound.linked.onCell_validated_run hlive hlinks validate [(seatOf cells pulse.cell).toId]).trans
    (congrArg (EStateM.Result.ok _) (sheet_add_pulse hbefore.nodup hknown))
  rw [setPulse, final_of_ok hrun] at hnext
  exact ⟨hrun, hnext⟩

theorem namesOf_concat (hbefore : WellDeclared ⟨cells, [], []⟩) {cell : DeclaredCell}
    (habove : cell.above ∈ knownNames cells) :
    namesOf (cells ++ [cell]) = (namesOf cells).insert cell.name (cellAt (cells.length + 1)) := by
  rw [namesOf, sketches_concat hbefore.above_mem habove, List.map_append, Table.ofList, List.foldl_append]
  rfl

/-- The parent of a declared cell is looked up, if one is given. -/
theorem declareCell_of_new {validate : Bool} {n : NamedCircuit} {cell : DeclaredCell}
    (hnew : n.names.get? cell.name = none) :
    declareCell validate n cell =
      ((match cell.parent with
        | some parent => n.named parent (.unknownParent cell.name parent)
        | none => .ok .root : Except SceneError CellId).bind fun parent =>
          (n.editing (createCell validate parent cell.kind cell.position) (.creating cell.name)).bind
            fun (id, n) => .ok { n with names := n.names.insert cell.name id }) := by
  rw [declareCell, Table.contains, hnew]
  cases cell.parent <;> rfl

theorem declareCell_run (validate : Bool) {cell : DeclaredCell} (h : WellDeclared ⟨cells ++ [cell], [], []⟩)
    (hsound : (blueprint ⟨cells, [], []⟩).circuit.Sound) :
    declareCell validate (blueprint ⟨cells, [], []⟩) cell = .ok (blueprint ⟨cells ++ [cell], [], []⟩) ∧
      (blueprint ⟨cells ++ [cell], [], []⟩).circuit.Sound := by
  obtain ⟨hbefore, hname, hparent⟩ := wellDeclared_cell_iff.mp h
  obtain ⟨hrun, hnext⟩ := createCell_blueprint validate h hsound
  refine ⟨?_, hnext⟩
  have hlook : (match cell.parent with
      | some parent => (blueprint ⟨cells, [], []⟩).named parent (.unknownParent cell.name parent)
      | none => .ok .root : Except SceneError CellId) = .ok (seatOf cells cell.above) := by
    rw [DeclaredCell.above]
    cases hgiven : cell.parent with
    | none => exact congrArg Except.ok (seatOf_root cells).symm
    | some parent => exact named_of_known hbefore.nodup (hparent parent hgiven) _
  rw [declareCell_of_new (get?_namesOf_of_unknown hbefore.nodup hname), hlook]
  show ((blueprint ⟨cells, [], []⟩).editing _ _).bind _ = _
  rw [editing_of_ok hrun]
  show Except.ok (NamedCircuit.mk _ _) = _
  rw [blueprint, blueprint, namesOf_concat hbefore (above_mem_of_parent hparent)]

theorem declareWire_run (validate : Bool) {wire : DeclaredWire} (h : WellDeclared ⟨cells, wires ++ [wire], []⟩)
    (hsound : (blueprint ⟨cells, wires, []⟩).circuit.Sound) :
    declareWire validate (blueprint ⟨cells, wires, []⟩) wire = .ok (blueprint ⟨cells, wires ++ [wire], []⟩) ∧
      (blueprint ⟨cells, wires ++ [wire], []⟩).circuit.Sound := by
  obtain ⟨hbefore, hsource, htarget⟩ := wellDeclared_wire_iff.mp h
  obtain ⟨hrun, hnext⟩ := createWire_blueprint validate h hsound
  refine ⟨?_, hnext⟩
  rw [declareWire, named_of_known hbefore.nodup hsource]
  show Except.bind _ _ = _
  rw [named_of_known hbefore.nodup htarget]
  show ((blueprint ⟨cells, wires, []⟩).editing _ _).bind _ = _
  rw [editing_of_ok hrun]
  rfl

theorem declarePulse_run (validate : Bool) {pulse : DeclaredPulse}
    (h : WellDeclared ⟨cells, wires, pulses ++ [pulse]⟩)
    (hsound : (blueprint ⟨cells, wires, pulses⟩).circuit.Sound) :
    declarePulse validate (blueprint ⟨cells, wires, pulses⟩) pulse =
        .ok (blueprint ⟨cells, wires, pulses ++ [pulse]⟩) ∧
      (blueprint ⟨cells, wires, pulses ++ [pulse]⟩).circuit.Sound := by
  obtain ⟨hbefore, hknown⟩ := wellDeclared_pulse_iff.mp h
  obtain ⟨hrun, hnext⟩ := fire_blueprint validate h hsound
  refine ⟨?_, hnext⟩
  rw [declarePulse, named_of_known hbefore.nodup hknown]
  show ((blueprint ⟨cells, wires, pulses⟩).editing _ _).bind _ = _
  rw [editing_of_ok hrun]
  rfl

/-! ### Failures -/

theorem declareCell_of_flaw (validate : Bool) {cell : DeclaredCell} (h : WellDeclared ⟨cells, [], []⟩)
    {e : SceneError} (hflaw : CellFlaw cells cell e) :
    declareCell validate (blueprint ⟨cells, [], []⟩) cell = .error e := by
  cases hflaw with
  | twice hname =>
    rw [declareCell, Table.contains, blueprint, get?_namesOf h.nodup hname]
    rfl
  | orphan hname hparent hunknown =>
    rw [declareCell_of_new (get?_namesOf_of_unknown h.nodup hname), hparent]
    show ((blueprint ⟨cells, [], []⟩).named _ _).bind _ = _
    rw [named_of_unknown h.nodup hunknown]
    rfl

theorem declareWire_of_flaw (validate : Bool) {wire : DeclaredWire} (h : WellDeclared ⟨cells, wires, []⟩)
    {e : SceneError} (hflaw : WireFlaw cells wire e) :
    declareWire validate (blueprint ⟨cells, wires, []⟩) wire = .error e := by
  cases hflaw with
  | source hsource =>
    rw [declareWire, named_of_unknown h.nodup hsource]
    rfl
  | target hsource htarget =>
    rw [declareWire, named_of_known h.nodup hsource]
    show Except.bind _ _ = _
    rw [named_of_unknown h.nodup htarget]
    rfl

theorem declarePulse_of_unknown (validate : Bool) {pulse : DeclaredPulse} (h : WellDeclared ⟨cells, wires, pulses⟩)
    (hunknown : pulse.cell ∉ knownNames cells) :
    declarePulse validate (blueprint ⟨cells, wires, pulses⟩) pulse = .error (.unknownFired pulse.cell) := by
  rw [declarePulse, named_of_unknown h.nodup hunknown]
  rfl

end Steps

/-! ### The three loops -/

section Loops

variable (validate : Bool) {scene : Scene}

theorem cells_run {cells : List DeclaredCell} (h : WellDeclared ⟨cells, [], []⟩) :
    cells.foldlM (declareCell validate) (.ofCircuit .initial) = .ok (blueprint ⟨cells, [], []⟩) ∧
      (blueprint ⟨cells, [], []⟩).circuit.Sound :=
  foldlM_states (fun cells => blueprint ⟨cells, [], []⟩) (·.circuit.Sound)
    (P := fun cells => WellDeclared ⟨cells, [], []⟩)
    sound_initial (fun _ _ h => (wellDeclared_cell_iff.mp h).1) (fun _ _ => declareCell_run validate) h

theorem wires_run {cells : List DeclaredCell} {wires : List DeclaredWire} (h : WellDeclared ⟨cells, wires, []⟩) :
    wires.foldlM (declareWire validate) (blueprint ⟨cells, [], []⟩) = .ok (blueprint ⟨cells, wires, []⟩) ∧
      (blueprint ⟨cells, wires, []⟩).circuit.Sound :=
  foldlM_states (fun wires => blueprint ⟨cells, wires, []⟩) (·.circuit.Sound)
    (P := fun wires => WellDeclared ⟨cells, wires, []⟩)
    (cells_run validate h.onlyCells).2 (fun _ _ h => (wellDeclared_wire_iff.mp h).1)
    (fun _ _ => declareWire_run validate) h

theorem pulses_run {scene : Scene} (h : scene.WellDeclared) :
    scene.pulses.foldlM (declarePulse validate) (blueprint ⟨scene.cells, scene.wires, []⟩) = .ok scene.blueprint ∧
      scene.blueprint.circuit.Sound :=
  foldlM_states (fun pulses => blueprint ⟨scene.cells, scene.wires, pulses⟩) (·.circuit.Sound)
    (P := fun pulses => WellDeclared ⟨scene.cells, scene.wires, pulses⟩)
    (wires_run validate h.onlyWires).2 (fun _ _ h => (wellDeclared_pulse_iff.mp h).1)
    (fun _ _ => declarePulse_run validate) h

/-- A scene whose declarations fit is built into its blueprint. -/
theorem build_of_wellDeclared (h : scene.WellDeclared) : scene.build validate = .ok scene.blueprint := by
  rw [build, (cells_run validate h.onlyCells).1]
  show (scene.wires.foldlM (declareWire validate) _).bind _ = _
  rw [(wires_run validate h.onlyWires).1]
  exact (pulses_run validate h).1

/-- A scene whose declarations do not fit is rejected for the first that does not. -/
theorem build_of_rejects {e : SceneError} (h : scene.Rejects e) : scene.build validate = .error e := by
  cases h with
  | cell hcells hbefore hflaw =>
    rw [build, hcells, foldlM_failure (cells_run validate hbefore).1 (declareCell_of_flaw validate hbefore hflaw)]
    rfl
  | wire hwires hbefore hflaw =>
    rw [build, (cells_run validate hbefore.onlyCells).1]
    show (scene.wires.foldlM (declareWire validate) _).bind _ = _
    rw [hwires, foldlM_failure (wires_run validate hbefore).1 (declareWire_of_flaw validate hbefore hflaw)]
    rfl
  | pulse hpulses hbefore hunknown =>
    rw [build, (cells_run validate hbefore.onlyCells).1]
    show (scene.wires.foldlM (declareWire validate) _).bind _ = _
    rw [(wires_run validate hbefore.onlyWires).1]
    show scene.pulses.foldlM (declarePulse validate) _ = _
    rw [hpulses]
    exact foldlM_failure (pulses_run validate hbefore).1 (declarePulse_of_unknown validate hbefore hunknown)

end Loops

/-! ### What is built -/

/-- The named circuit is what the scene describes: the names in order, under the i-th id the i-th cell, and under
the j-th wire id the j-th wire, each as it was declared and with nothing else attached to it. -/
structure Realizes (scene : Scene) (n : NamedCircuit) : Prop where
  names : n.names.rows = (knownNames scene.cells).mapIdx fun i name => (name, cellAt i)
  keys : n.circuit.live.keys = (List.range (scene.cells.length + 1)).map (fun i => (cellAt i).toId) ++
    (List.range scene.wires.length).map fun j => (wireAt (j + 1)).toId
  root : n.circuit.cell .root = .ok
    { id := .root
      parent := none
      kind := .relay
      position := .origin
      children := (scene.attached rootName).children
      inputs := (scene.attached rootName).inputs
      outputs := (scene.attached rootName).outputs
      fire := (scene.attached rootName).fire
      tags := [] }
  cell : ∀ (i : Nat) declared, scene.cells[i]? = some declared → n.circuit.cell ⟨i + 1⟩ = .ok
    { id := ⟨i + 1⟩
      parent := n.names.get? declared.above
      kind := declared.kind
      position := declared.position
      children := (scene.attached declared.name).children
      inputs := (scene.attached declared.name).inputs
      outputs := (scene.attached declared.name).outputs
      fire := (scene.attached declared.name).fire
      tags := [] }
  wire : ∀ (j : Nat) declared, scene.wires[j]? = some declared →
    ∃ source target, n.names.get? declared.source = some source ∧ n.names.get? declared.target = some target ∧
      n.circuit.wire ⟨-(j + 1)⟩ = .ok ⟨⟨-(j + 1)⟩, source, target, declared.colour, declared.timing⟩
  archive : n.circuit.archive = .empty
  ids : n.circuit.ids = ⟨scene.cells.length + 1, -(scene.wires.length + 1), [], [], []⟩
  checked : n.circuit.checkAll = .ok ()

theorem realizes_blueprint {scene : Scene} (h : scene.WellDeclared) : scene.Realizes scene.blueprint where
  names := by
    rw [blueprint, rows_namesOf h.nodup]
    refine List.ext_getElem? fun i => ?_
    rw [List.getElem?_map, List.getElem?_mapIdx, knownNames]
    cases i with
    | zero => rfl
    | succ i =>
      rw [getElem?_sketches, List.getElem?_cons_succ, List.getElem?_map, Option.map_map, Option.map_map]
      rfl
  keys := keys_rows ..
  root := cell_ok_iff.mpr (cell?_sheet List.mem_cons_self)
  cell i declared hdeclared := by
    have habove := h.above_mem declared (List.mem_of_getElem? hdeclared)
    have hsketch := getElem?_sketches scene.cells i
    rw [hdeclared, Option.map_some] at hsketch
    rw [blueprint, get?_namesOf h.nodup habove]
    exact cell_ok_iff.mpr (cell?_sheet (List.mem_of_getElem? hsketch))
  wire j declared hdeclared := by
    obtain ⟨hsource, htarget⟩ := h.wires declared (List.mem_of_getElem? hdeclared)
    refine ⟨_, _, get?_namesOf h.nodup hsource, get?_namesOf h.nodup htarget, ?_⟩
    have hwire : (drawnWires scene.cells scene.wires)[j]? = some ⟨wireAt (j + 1),
        seatOf scene.cells declared.source, seatOf scene.cells declared.target, declared.colour,
        declared.timing⟩ := by
      rw [drawnWires, List.getElem?_mapIdx, hdeclared, Option.map_some]
    exact wire_ok_iff.mpr (wire?_sheet (List.mem_of_getElem? hwire))
  archive := rfl
  ids := rfl
  checked := (pulses_run true h).2.linked.checked.checkAll_ok

/-- A scene is built exactly if its declarations fit each other, with the edits checked or not. What is built is
what the scene describes, and where nothing is built the error is about the first declaration that does not fit. -/
theorem build_exact (validate : Bool) (scene : Scene) :
    ((∃ n, scene.build validate = .ok n) ↔ scene.WellDeclared) ∧
      (∀ n, scene.build validate = .ok n → scene.Realizes n) ∧
      ∀ e, scene.build validate = .error e ↔ scene.Rejects e := by
  rcases scene.wellDeclared_or_rejects with h | ⟨e, h⟩
  · have hbuild := build_of_wellDeclared validate h
    refine ⟨⟨fun _ => h, fun _ => ⟨_, hbuild⟩⟩, fun n hn => ?_, fun e => ⟨fun he => ?_, fun he => ?_⟩⟩
    · rw [hbuild] at hn
      cases hn
      exact realizes_blueprint h
    · cases hbuild.symm.trans he
    · exact build_of_rejects validate he
  · have hbuild := build_of_rejects validate h
    refine ⟨⟨fun ⟨n, hn⟩ => ?_, fun hfit => ⟨_, build_of_wellDeclared validate hfit⟩⟩, fun n hn => ?_,
      fun other => ⟨fun hother => ?_, build_of_rejects validate⟩⟩
    · cases hbuild.symm.trans hn
    · cases hbuild.symm.trans hn
    · cases hbuild.symm.trans hother
      exact h

/-- A slot below a creation cell, which feeds it and itself. A second pulse takes the place of the first. -/
def nest : Scene where
  cells := [⟨"spawner", .creation, none, .origin⟩, ⟨"hole", .slot, some "spawner", .origin⟩]
  wires := [⟨"spawner", "hole", .any, .now⟩, ⟨"spawner", "spawner", .any, .past⟩]
  pulses := [⟨"spawner", .red, .ping⟩, ⟨"spawner", .red, .raw⟩]

/-- With its cells the other way round, the slot names a parent that is not declared yet. -/
theorem build_exact_nest :
    (∃ n, nest.build true = .ok n ∧ nest.Realizes n ∧ ∃ cell, n.circuit.cell ⟨1⟩ = .ok cell ∧
      cell.children = [⟨2⟩] ∧ cell.inputs = [⟨-2⟩] ∧ cell.outputs = [⟨-1⟩, ⟨-2⟩] ∧
      cell.fire = ⟨some .raw, none, none⟩) ∧
    Rejects { nest with cells := nest.cells.reverse } (.unknownParent "hole" "spawner") := by
  obtain ⟨-, hrealizes, -⟩ := build_exact true nest
  obtain ⟨-, -, hrejects⟩ := build_exact true { nest with cells := nest.cells.reverse }
  exact ⟨⟨_, rfl, hrealizes _ rfl, _, rfl, rfl, rfl, rfl, rfl⟩, (hrejects _).mp rfl⟩

end Scene

end PulseCircuit
