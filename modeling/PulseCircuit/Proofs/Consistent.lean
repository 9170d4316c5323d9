import PulseCircuit.Proofs.Agreement
import PulseCircuit.Proofs.Edits

/-!
# Linked circuits pass every check

The invariant says of all rows at once what the checks ask of each, so no check of a linked circuit fails.

* `Linked.agrees`, `Linked.checked`, `Linked.checkLive_ok`: no row has a defect;
* `Linked.project_ok`: projection succeeds, and its outcome is linked again.
-/

namespace PulseCircuit

namespace Circuit

variable {c : Circuit}

namespace Linked

theorem root_live (h : c.Linked) : ∃ cell, c.cell? .root = some cell := by
  obtain ⟨bs, hbs⟩ := h.tree.top_mem
  exact cell?_of_ofCells hbs

/-! ## No defects -/

/-- In a linked circuit both sides of each link say the same, and everything hangs below the root. -/
theorem agrees (h : c.Linked) : c.Agrees := by
  constructor
  case parentless =>
    intro id cell hcell
    exact h.parent_eq_none_iff (cell_ok_iff.mp hcell)
  case parent =>
    intro id cell parent hcell hup
    have hparent := (parentOf_eq (cell_ok_iff.mp hcell)).trans hup
    obtain ⟨above, habove⟩ := h.parent_live hparent
    exact ⟨above, cell_ok_iff.mpr habove, h.tree.links.mem_of_target (childrenOf_eq habove) hparent⟩
  case child =>
    intro id cell child hcell hchild
    have hparent := h.tree.links.target_of_mem (childrenOf_eq (cell_ok_iff.mp hcell)) hchild
    obtain ⟨below, hbelow⟩ := cell?_of_ofCells hparent
    exact ⟨below, cell_ok_iff.mpr hbelow, (parentOf_eq hbelow).symm.trans hparent⟩
  case input =>
    intro id cell input hcell hinput
    have htarget := h.targets.target_of_mem (inputsOf_eq (cell_ok_iff.mp hcell)) hinput
    obtain ⟨wire, hwire⟩ := wire?_of_ofWires htarget
    rw [targetOf_eq hwire, Option.some.injEq] at htarget
    exact ⟨wire, wire_ok_iff.mpr hwire, htarget⟩
  case output =>
    intro id cell output hcell houtput
    have hsource := h.sources.target_of_mem (outputsOf_eq (cell_ok_iff.mp hcell)) houtput
    obtain ⟨wire, hwire⟩ := wire?_of_ofWires hsource
    rw [sourceOf_eq hwire, Option.some.injEq] at hsource
    exact ⟨wire, wire_ok_iff.mpr hwire, hsource⟩
  case source =>
    intro id wire hwire
    obtain ⟨source, hsource⟩ := h.source_live (wire_ok_iff.mp hwire)
    exact ⟨source, cell_ok_iff.mpr hsource,
      h.sources.mem_of_target (outputsOf_eq hsource) (sourceOf_eq (wire_ok_iff.mp hwire))⟩
  case target =>
    intro id wire hwire
    obtain ⟨target, htarget⟩ := h.target_live (wire_ok_iff.mp hwire)
    exact ⟨target, cell_ok_iff.mpr htarget,
      h.targets.mem_of_target (inputsOf_eq htarget) (targetOf_eq (wire_ok_iff.mp hwire))⟩
  case reaches =>
    intro id cell hcell
    rw [hangsOn_eq]
    exact h.tree.climbs (childrenOf_eq (cell_ok_iff.mp hcell))

/-- A linked circuit is what the check of all rows asks for. -/
theorem checked (h : c.Linked) : c.Checked := h.agrees.checked h.keyed

theorem rooted (h : c.Linked) : c.Rooted := h.checked.rooted

theorem check_ok (h : c.Linked) {id : Id} (hlive : c.contains id = true) : c.check id = .ok () := by
  obtain ⟨row, hrow⟩ := Option.isSome_iff_exists.mp hlive
  have hlook : c.row id = .ok row := by rw [Circuit.row, hrow]
  exact check_of_agree hlook (h.checked.agree hrow)

theorem checkLive_ok (h : c.Linked) (ids : List Id) : c.checkLive ids = .ok () := by
  refine forM_ok fun id hid => h.check_ok ?_
  exact (List.mem_filter.mp hid).2

theorem checkAll_ok (h : c.Linked) : c.checkAll = .ok () := h.checked.checkAll_ok

/-! ## Projection -/

/-- Projection changes pulses only. -/
theorem keepPulses (h : c.Linked) (kept : List CellId) : (c.keepPulses kept).Linked := by
  rw [keepPulses_eq_mapCells]
  refine h.mapCells fun cell => ?_
  split <;> exact ⟨rfl, rfl, rfl, rfl, rfl⟩

/-- A linked circuit can be projected, checked or not. -/
theorem project_ok (h : c.Linked) (validate : Bool) : ∃ d, c.project validate = .ok d :=
  h.checked.project_ok validate

theorem of_project (h : c.Linked) {validate : Bool} {d : Circuit}
    (hproject : c.project validate = .ok d) : d.Linked := by
  obtain ⟨kept, -, rfl⟩ := Circuit.project_ok hproject
  exact h.keepPulses kept

end Linked

theorem Sound.of_project (h : c.Sound) {validate : Bool} {d : Circuit}
    (hproject : c.project validate = .ok d) : d.Sound := by
  obtain ⟨kept, -, rfl⟩ := project_ok hproject
  exact ⟨h.linked.keepPulses kept, h.owned.mapCells _⟩

end Circuit

end PulseCircuit
