import PulseCircuit.Proofs.Comparing
import PulseCircuit.Proofs.Likeness
import PulseCircuit.Proofs.Reachable
import PulseCircuit.Proofs.Shelter

/-!
# Circuits that show the same state

To show the same state is to have rows that compare equal under the same ids, in whatever order they come
(`sameState_iff_rel`). Time stops where a state comes again, which is right only if such circuits cannot be told
apart by questions:

* `sameState_congr`: a circuit can be compared in the place of another that shows the same state;
* `Checked.sameState_project`: projections of such circuits show the same state again;
* `lawful_matching`: such circuits look alike to a walk, whose peaks then compare equal;
* `same_state_same_answers`: questions about them have equal answers and take the same work.
-/

namespace PulseCircuit

namespace Circuit

variable {c c' d d' e : Circuit} {validate : Bool}

/-! ## Rows that compare equal -/

theorem sameState_iff : c.sameState d = true ↔ c.size = d.size ∧
    ∀ id row, c.live.get? id = some row → ∃ other, d.live.get? id = some other ∧ Matches row other := by
  rw [sameState, Bool.and_eq_true, beq_iff_eq, List.all_eq_true]
  refine and_congr_right fun _ => ?_
  constructor
  · intro hall id row hrow
    have hmatch := hall _ (Table.get?_eq_some_iff.mp hrow)
    dsimp only at hmatch
    split at hmatch
    next other hother => exact ⟨other, hother, hmatch⟩
    next => cases hmatch
  · rintro hall ⟨id, row⟩ hrow
    rcases hall id row (Table.get?_eq_some_iff.mpr hrow) with ⟨other, hother, hmatch⟩
    dsimp only
    rw [hother]
    exact hmatch

theorem size_eq_length_keys (c : Circuit) : c.size = c.live.keys.length := by
  rw [size, Table.size, Table.keys, List.length_map]

/-- As both have equally many rows, neither has one that the other lacks. -/
theorem sameState_iff_rel :
    c.sameState d = true ↔ ∀ id, Option.Rel Matches (c.live.get? id) (d.live.get? id) := by
  have hnodup : ∀ c : Circuit, c.live.keys.Nodup := fun c => c.live.nodup
  rw [sameState_iff]
  constructor
  · rintro ⟨hsize, hall⟩ id
    cases hrow : c.live.get? id with
    | some row =>
      rcases hall id row hrow with ⟨other, hother, hmatch⟩
      rw [hother]
      exact .some hmatch
    | none =>
      have hsub : c.live.keys ⊆ d.live.keys := by
        intro key hkey
        rcases Option.isSome_iff_exists.mp (Table.mem_keys_iff.mp hkey) with ⟨row, hrow⟩
        rcases hall key row hrow with ⟨other, hother, -⟩
        exact Table.mem_keys_iff.mpr (Option.isSome_of_eq_some hother)
      have hlength : d.live.keys.length ≤ c.live.keys.length := by
        rw [← size_eq_length_keys, ← size_eq_length_keys, hsize]
      have hperm := (List.subperm_of_subset (hnodup c) hsub).perm_of_length_le hlength
      have hother : d.live.get? id = none := by
        rw [Table.get?_eq_none_iff, ← hperm.mem_iff]
        exact Table.get?_eq_none_iff.mp hrow
      rw [hother]
      exact .none
  · intro hrel
    constructor
    · have hmem : ∀ id, id ∈ c.live.keys ↔ id ∈ d.live.keys := by
        intro id
        have hid := hrel id
        rw [Table.mem_keys_iff, Table.mem_keys_iff]
        generalize c.live.get? id = row, d.live.get? id = other at hid ⊢
        rcases hid with - | -
        · rfl
        · rfl
      rw [size_eq_length_keys, size_eq_length_keys]
      exact ((List.perm_ext_iff_of_nodup (hnodup c) (hnodup d)).mpr hmem).length_eq
    · intro id row hrow
      have hid := hrel id
      rw [hrow] at hid
      generalize d.live.get? id = found at hid
      rcases hid with hmatch | -
      exact ⟨_, rfl, hmatch⟩

/-- A circuit can be compared in the place of another that shows the same state. -/
theorem sameState_congr (h : c.sameState d = true) (h' : c'.sameState d' = true) :
    d.sameState d' = c.sameState c' := by
  rw [sameState_iff_rel] at h h'
  rw [Bool.eq_iff_iff, sameState_iff_rel, sameState_iff_rel]
  refine forall_congr' fun id => ?_
  have hid := h id
  have hid' := h' id
  simp only [← matches_option_iff] at hid hid' ⊢
  -- both sides compare rows that compare equal
  have hleft : (c.live.get? id == c'.live.get? id) = (d.live.get? id == c'.live.get? id) := BEq.congr_left hid
  have hright : (d.live.get? id == c'.live.get? id) = (d.live.get? id == d'.live.get? id) :=
    BEq.congr_right hid'
  rw [Matches, Matches, hleft, hright]

/-! ## What such circuits have in common -/

section Common

variable (h : c.sameState d = true)
include h

theorem size_of_sameState : d.size = c.size := (sameState_iff.mp h).1.symm

/-- A look-up finds a row of the same kind in both, or nothing in both. -/
theorem find_of_sameState (id : Id) :
    (∃ cell other, c.live.get? id = some (.cell cell) ∧ d.live.get? id = some (.cell other) ∧
      cell.Matching other) ∨
    (∃ wire, c.live.get? id = some (.wire wire) ∧ d.live.get? id = some (.wire wire)) ∨
    (c.live.get? id = none ∧ d.live.get? id = none) := by
  have hid := sameState_iff_rel.mp h id
  generalize c.live.get? id = row, d.live.get? id = other at hid
  rcases hid with @⟨row, other, hmatch⟩ | -
  · rcases row with cell | wire <;> rcases other with cell' | wire'
    · exact .inl ⟨cell, cell', rfl, rfl, Cell.matches_iff.mp hmatch⟩
    · cases hmatch
    · cases hmatch
    · rcases matches_iff_eq.mp (show Matches wire wire' from hmatch)
      exact .inr (.inl ⟨wire, rfl, rfl⟩)
  · exact .inr (.inr ⟨rfl, rfl⟩)

theorem cell?_of_sameState (id : CellId) :
    (∃ cell other, c.cell? id = some cell ∧ d.cell? id = some other ∧ cell.Matching other) ∨
      (c.cell? id = none ∧ d.cell? id = none) := by
  rcases find_of_sameState h id with ⟨cell, other, hcell, hother, hmatch⟩ | ⟨wire, hcell, hother⟩ |
    ⟨hcell, hother⟩
  · exact .inl ⟨cell, other, cell?_eq_some_iff.mpr hcell, cell?_eq_some_iff.mpr hother, hmatch⟩
  · exact .inr (by simp [cell?, hcell, hother])
  · exact .inr ⟨cell?_of_absent hcell, cell?_of_absent hother⟩

theorem likewise_cell_of_sameState (id : CellId) : Likewise Cell.Matching (c.cell id) (d.cell id) := by
  unfold Circuit.cell
  rcases find_of_sameState h id with ⟨cell, other, hcell, hother, hmatch⟩ | ⟨wire, hcell, hother⟩ |
    ⟨hcell, hother⟩
  · rw [hcell, hother]
    exact .ok hmatch
  · rw [hcell, hother]
    exact .error _
  · rw [hcell, hother]
    exact .error _

theorem wire_of_sameState (id : WireId) : d.wire id = c.wire id := by
  unfold Circuit.wire
  rcases find_of_sameState h id with ⟨cell, other, hcell, hother, -⟩ | ⟨wire, hcell, hother⟩ |
    ⟨hcell, hother⟩
  · rw [hcell, hother]
  · rw [hcell, hother]
  · rw [hcell, hother]

/-- The same cells are lit, in the same places of the tree. -/
theorem litAt_eq_of_sameState : d.litAt = c.litAt := by
  funext id
  rw [litAt, litAt]
  rcases cell?_of_sameState h id with ⟨cell, other, hcell, hother, hmatch⟩ | ⟨hcell, hother⟩
  · rw [hcell, hother, Option.map_some, Option.map_some, hmatch.parent, isLit_of_beq hmatch.fire]
  · rw [hcell, hother]

end Common

/-- Projection puts out the same cells of circuits that show the same state. -/
theorem Checked.sameState_project (hc : c.Checked) (hd : d.Checked) (h : c.sameState d = true)
    (hproject : c.project validate = .ok c') (hproject' : d.project validate = .ok d') :
    c'.sameState d' = true := by
  rw [sameState_iff_rel]
  intro id
  rcases find_of_sameState h id with ⟨cell, other, hrow, hrow', hmatch⟩ | ⟨wire, hrow, hrow'⟩ |
    ⟨hrow, hrow'⟩
  · have hcell : c.cell? ⟨id.raw⟩ = some cell := cell?_eq_some_iff.mpr hrow
    have hother : d.cell? ⟨id.raw⟩ = some other := cell?_eq_some_iff.mpr hrow'
    rcases hc.rooted.cell?_of_project hproject hcell with ⟨fire, hfire, habove, hbare⟩
    rcases hd.rooted.cell?_of_project hproject' hother with ⟨fire', hfire', habove', hbare'⟩
    have hkept : Matches fire fire' := by
      rw [litAbove_congr (litAt_eq_of_sameState h)] at habove' hbare'
      by_cases hlit : c.LitAbove ⟨id.raw⟩
      · rw [habove hlit, habove' hlit]
        exact hmatch.fire
      · rw [hbare hlit, hbare' hlit]
        rfl
    have hleft : c'.live.get? id = some (.cell { cell with fire := fire }) := cell?_eq_some_iff.mp hfire
    have hright : d'.live.get? id = some (.cell { other with fire := fire' }) := cell?_eq_some_iff.mp hfire'
    rw [hleft, hright]
    exact .some (Cell.matches_iff.mpr (hmatch.store hkept))
  · have hwire : c.wire? ⟨id.raw⟩ = some wire := wire?_eq_some_iff.mpr hrow
    have hwire' : d.wire? ⟨id.raw⟩ = some wire := wire?_eq_some_iff.mpr hrow'
    rw [← wire?_of_project hproject] at hwire
    rw [← wire?_of_project hproject'] at hwire'
    have hleft : c'.live.get? id = some (.wire wire) := wire?_eq_some_iff.mp hwire
    have hright : d'.live.get? id = some (.wire wire) := wire?_eq_some_iff.mp hwire'
    rw [hleft, hright]
    exact .some (beq_self_eq_true wire)
  · have hnone : ∀ {c c' : Circuit}, c.project validate = .ok c' → c.live.get? id = none →
        c'.live.get? id = none := by
      intro c c' hproject hrow
      rw [Table.get?_eq_none_iff, keys_project hproject]
      exact Table.get?_eq_none_iff.mp hrow
    rw [hnone hproject hrow, hnone hproject' hrow']
    exact .none

/-- Checked circuits that show the same state. -/
structure Mate (c d : Circuit) : Prop where
  left : c.Checked
  right : d.Checked
  same : c.sameState d = true

theorem Mate.project (h : c.Mate d) (validate : Bool) :
    ∃ c' d', c.project validate = .ok c' ∧ d.project validate = .ok d' ∧ c'.Mate d' := by
  rcases h.left.project_ok validate with ⟨c', hproject⟩
  rcases h.right.project_ok validate with ⟨d', hproject'⟩
  exact ⟨c', d', hproject, hproject', h.left.of_project hproject, h.right.of_project hproject',
    h.left.sameState_project h.right h.same hproject hproject'⟩

end Circuit

namespace Evaluator

open Circuit

variable {c d : Circuit} {validate : Bool}

/-- Circuits that show the same state look alike, and the peaks found in them compare equal. -/
def matching (colour : Colour) : Likeness where
  colour := colour
  mirrored := false
  looks := fun _ => True
  circuit := Mate
  cell := Cell.Matching
  peak := Matches

theorem lawful_matching (colour : Colour) (validate : Bool) : (matching colour).Lawful validate where
  cells h id := likewise_cell_of_sameState h.same id
  wires := by
    intro c d h id
    rw [wire_of_sameState h.same]
    cases c.wire id with
    | ok wire => exact .ok rfl
    | error fault => exact .error fault
  looks _ _ _ := trivial
  size h := size_of_sameState h.same
  id h := h.id
  inputs h := h.inputs
  stored h := Peak.ofPulse?_matches (Fire.matches_iff.mp h.fire colour)
  nothing := rfl
  final h := Peak.isFinal_congr h
  fold wire hsource htarget hprevious hnext := Peak.fold_matches hprevious hnext hsource htarget wire _
  project := by
    intro c d _ h
    rcases h.project validate with ⟨c', d', hproject, hproject', hmate⟩
    rw [hproject, hproject']
    exact .ok hmate
  sameState _ h h' := sameState_congr h.same h'.same

end Evaluator

namespace Circuit

open Evaluator

/-- Checked circuits that show the same state are projected to circuits that show the same state again, and
answer every question alike: with peaks that compare equal or with the same fault, and with the same work. -/
theorem same_state_same_answers {c d : Circuit} (hkeyed : c.Keyed) (hkeyed' : d.Keyed)
    (hcheck : c.checkAll = .ok ()) (hcheck' : d.checkAll = .ok ()) (h : c.sameState d = true) (validate : Bool) :
    (∃ c' d', c.project validate = .ok c' ∧ d.project validate = .ok d' ∧ c'.sameState d' = true) ∧
    ∀ id colour timing,
      Likewise Matches (c.getPeak validate id colour timing [] []) (d.getPeak validate id colour timing [] []) ∧
      ((peak id colour timing).final (.ofHistory validate d [] [])).stats =
        ((peak id colour timing).final (.ofHistory validate c [] [])).stats := by
  have hmate : c.Mate d := ⟨checked_of_checkAll hkeyed hcheck, checked_of_checkAll hkeyed' hcheck', h⟩
  constructor
  · rcases hmate.project validate with ⟨c', d', hproject, hproject', hmate'⟩
    exact ⟨c', d', hproject, hproject', hmate'.same⟩
  · intro id colour timing
    have hstart : Alike (matching colour) _ _ := alike_alone hmate validate
    have halike := hstart.reply (lawful_matching colour validate) id timing trivial
    constructor
    · exact halike.1
    · exact halike.2.stats

/-- A creation pulse on the root, a recording cell and a slot that it gets to, and the rows in some order. The
cells lie where both coordinates are the given zero. -/
def sketch (zero : Float) (order : List (Id × Row) → List (Id × Row)) : Circuit :=
  let c := initial.performAll true
    [.createCell .root .recording ⟨zero, zero⟩, .createCell ⟨1⟩ .slot ⟨zero, zero⟩,
      .fire .root .red (.creation none), .createWire .root ⟨1⟩ .any .now, .createWire ⟨1⟩ ⟨2⟩ .any .now]
  { c with live := .ofList (order c.live.rows) }

theorem same_state_same_answers_sketch :
    (sketch 0 id).Keyed ∧ (sketch (-0) List.reverse).Keyed ∧ (sketch 0 id).checkAll = .ok () ∧
      (sketch (-0) List.reverse).checkAll = .ok () ∧
      (sketch 0 id).sameState (sketch (-0) List.reverse) = true ∧
      sketch 0 id ≠ sketch (-0) List.reverse ∧
      Likewise Matches ((sketch 0 id).getPeak true ⟨2⟩ .red .now [] [])
        ((sketch (-0) List.reverse).getPeak true ⟨2⟩ .red .now [] []) := by
  have hkeyed : (sketch 0 id).Keyed := keyed_of_rows (by decide)
  have hkeyed' : (sketch (-0) List.reverse).Keyed := keyed_of_rows (by decide)
  have hcheck : (sketch 0 id).checkAll = .ok () := by decide
  have hcheck' : (sketch (-0) List.reverse).checkAll = .ok () := by decide
  have hsame : (sketch 0 id).sameState (sketch (-0) List.reverse) = true := by decide
  have h := same_state_same_answers hkeyed hkeyed' hcheck hcheck' hsame true
  exact ⟨hkeyed, hkeyed', hcheck, hcheck', hsame, by decide, (h.2 ⟨2⟩ .red .now).1⟩

end Circuit

end PulseCircuit
