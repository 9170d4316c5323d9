import PulseCircuit.Circuit.Projection
import PulseCircuit.Proofs.Lookup

/-!
# Circuits that equal themselves

Rows are compared as numbers are, so a row that holds a position that is not a number differs from
itself. `Numeric` says that no such position occurs, neither on a cell nor in a template a stored pulse
carries. A numeric circuit shows the same state as itself (`sameState_self`). `Placed` says it of the cells
only, which comes to the same where no pulses are stored (`Placed.numeric_of_dark`). A circuit that is not
placed shows the state of none (`sameState_of_not_placed`).
-/

namespace PulseCircuit

theorem float_beq_self {x : Float} (h : x.isNaN = false) : (x == x) = true := by
  show (x.toModel.unpack.compare x.toModel.unpack == some .eq) = true
  have hmodel : x.toModel.unpack.isNaN = false := h
  -- of the four shapes of an unpacked number only the one that is none differs from itself
  generalize x.toModel.unpack = y at hmodel
  cases y with
  | infinity sign => cases sign <;> rfl
  | notANumber => cases hmodel
  | zero sign => cases sign <;> rfl
  | finite sign mantissa exponent hpos =>
    have hsame : (compare exponent exponent).then (compare mantissa mantissa) = .eq := by simp
    cases sign with
    | positive =>
      show (some ((compare exponent exponent).then (compare mantissa mantissa)) == some .eq) = true
      rw [hsame]
      rfl
    | negative =>
      show (some ((compare exponent exponent).then (compare mantissa mantissa)).swap == some .eq) =
        true
      rw [hsame]
      rfl

/-- What is not a number equals nothing. -/
theorem float_beq_of_isNaN {x : Float} (h : x.isNaN = true) (y : Float) : (x == y) = false := by
  show (x.toModel.unpack.compare y.toModel.unpack == some .eq) = false
  have hmodel : x.toModel.unpack.isNaN = true := h
  generalize x.toModel.unpack = u at hmodel
  cases u with
  | notANumber => rfl
  | infinity sign => cases hmodel
  | zero sign => cases hmodel
  | finite sign mantissa exponent hpos => cases hmodel

/-! ## Numbers only -/

def Position.Numeric (p : Position) : Prop := p.x.isNaN = false ∧ p.y.isNaN = false

/-- The template a pulse carries, if it carries one, has a position made of numbers. -/
def Pulse.Numeric : Pulse → Prop
  | .creation (some template) => template.position.Numeric
  | _ => True

def Fire.Numeric (fire : Fire) : Prop := ∀ colour, ∀ pulse ∈ fire.get colour, pulse.Numeric

def Cell.Numeric (cell : Cell) : Prop := cell.position.Numeric ∧ cell.fire.Numeric

/-- No position and no template in the circuit holds something that is not a number. -/
def Circuit.Numeric (c : Circuit) : Prop := ∀ cell ∈ c.cells, cell.Numeric

/-- No cell of the circuit has a position that is not a number. -/
def Circuit.Placed (c : Circuit) : Prop := ∀ cell ∈ c.cells, cell.position.Numeric

instance (p : Position) : Decidable p.Numeric := inferInstanceAs (Decidable (_ ∧ _))

instance (pulse : Pulse) : Decidable pulse.Numeric :=
  match pulse with
  | .creation (some template) => inferInstanceAs (Decidable template.position.Numeric)
  | .raw | .creation none | .destruction | .ping => isTrue trivial

instance (fire : Fire) : Decidable fire.Numeric :=
  decidable_of_iff (∀ colour ∈ Colour.all, ∀ pulse ∈ fire.get colour, pulse.Numeric)
    ⟨fun h colour => h colour (by cases colour <;> decide), fun h colour _ => h colour⟩

instance (cell : Cell) : Decidable cell.Numeric := inferInstanceAs (Decidable (_ ∧ _))

instance (c : Circuit) : Decidable c.Numeric := inferInstanceAs (Decidable (∀ cell ∈ _, _))

instance (c : Circuit) : Decidable c.Placed := inferInstanceAs (Decidable (∀ cell ∈ _, _))

theorem Fire.numeric_none : Fire.none.Numeric := by
  intro colour pulse hpulse
  cases colour <;> cases hpulse

theorem Position.beq_self {p : Position} (h : p.Numeric) : (p == p) = true := by
  show (p.x == p.x && p.y == p.y) = true
  rw [float_beq_self h.1, float_beq_self h.2]
  rfl

theorem Position.beq_of_not_numeric {p : Position} (h : ¬ p.Numeric) (q : Position) : (p == q) = false := by
  show (p.x == q.x && p.y == q.y) = false
  rw [Position.Numeric, not_and_or, Bool.not_eq_false, Bool.not_eq_false] at h
  rcases h with hx | hy
  · rw [float_beq_of_isNaN hx, Bool.false_and]
  · rw [float_beq_of_isNaN hy, Bool.and_false]

theorem Template.beq_self {t : Template} (h : t.position.Numeric) : (t == t) = true := by
  show (t.kind == t.kind && t.position == t.position) = true
  rw [Position.beq_self h]
  simp

theorem Pulse.beq_self {pulse : Pulse} (h : pulse.Numeric) : (pulse == pulse) = true := by
  rcases pulse with - | (- | template) | - | -
  · rfl
  · rfl
  · exact Template.beq_self h
  · rfl
  · rfl

theorem optionPulse_beq_self {pulse : Option Pulse} (h : ∀ p ∈ pulse, p.Numeric) :
    (pulse == pulse) = true := by
  cases pulse with
  | none => rfl
  | some pulse => exact Pulse.beq_self (h pulse rfl)

theorem Fire.beq_self {fire : Fire} (h : fire.Numeric) : (fire == fire) = true := by
  have hred : (fire.red == fire.red) = true := optionPulse_beq_self (h .red)
  have hgreen : (fire.green == fire.green) = true := optionPulse_beq_self (h .green)
  have hblue : (fire.blue == fire.blue) = true := optionPulse_beq_self (h .blue)
  show (fire.red == fire.red && (fire.green == fire.green && fire.blue == fire.blue)) = true
  rw [hred, hgreen, hblue]
  rfl

theorem Cell.beq_self {cell : Cell} (h : cell.Numeric) : (cell == cell) = true := by
  show (cell.id == cell.id && (cell.parent == cell.parent && (cell.kind == cell.kind &&
    (cell.position == cell.position && (cell.children == cell.children &&
      (cell.inputs == cell.inputs && (cell.outputs == cell.outputs &&
        (cell.fire == cell.fire && cell.tags == cell.tags)))))))) = true
  rw [Position.beq_self h.1, Fire.beq_self h.2]
  simp

theorem Cell.beq_of_not_numeric {cell : Cell} (h : ¬ cell.position.Numeric) (other : Cell) :
    (cell == other) = false := by
  show (cell.id == other.id && (cell.parent == other.parent && (cell.kind == other.kind &&
    (cell.position == other.position && (cell.children == other.children &&
      (cell.inputs == other.inputs && (cell.outputs == other.outputs &&
        (cell.fire == other.fire && cell.tags == other.tags)))))))) = false
  rw [Position.beq_of_not_numeric h]
  simp

namespace Circuit

/-- Circuits with the same rows show the same state, if what they hold equals itself. -/
theorem sameState_of_get? {c d : Circuit} (h : c.Numeric) (hsize : c.size = d.size)
    (hsame : ∀ id, d.live.get? id = c.live.get? id) : c.sameState d = true := by
  rw [sameState, Bool.and_eq_true, List.all_eq_true]
  refine ⟨by simpa using hsize, ?_⟩
  rintro ⟨id, row⟩ hrow
  have hget := Table.get?_eq_some_iff.mpr hrow
  simp only [hsame, hget]
  rcases row with cell | wire
  · exact Cell.beq_self (h cell (mem_cells_iff_exists.mpr ⟨⟨id.raw⟩, cell?_eq_some_iff.mpr hget⟩))
  · show (wire == wire) = true
    simp

theorem sameState_self {c : Circuit} (h : c.Numeric) : c.sameState c = true :=
  sameState_of_get? h rfl fun _ => rfl

/-- A circuit with a position that is not a number shows the state of no circuit, not even of itself. -/
theorem sameState_of_not_placed {c : Circuit} (h : ¬ c.Placed) (d : Circuit) : c.sameState d = false := by
  simp only [Placed, Classical.not_forall] at h
  obtain ⟨cell, hcell, hposition⟩ := h
  obtain ⟨id, hlive⟩ := mem_cells_iff_exists.mp hcell
  have hrow := Table.get?_eq_some_iff.mp (cell?_eq_some_iff.mp hlive)
  rw [Bool.eq_false_iff]
  intro hsame
  rw [sameState, Bool.and_eq_true, List.all_eq_true] at hsame
  have hbeq := hsame.2 _ hrow
  dsimp only at hbeq
  split at hbeq
  next other _ =>
    rcases other with other | wire
    · have hother : (cell == other) = true := hbeq
      rw [Cell.beq_of_not_numeric hposition] at hother
      cases hother
    · cases hbeq
  next => cases hbeq

/-! ## Changes -/

theorem Numeric.changeCell {c : Circuit} (h : c.Numeric) (id : CellId) {change : Cell → Cell}
    (hchange : ∀ cell : Cell, cell.Numeric → (change cell).Numeric) : (c.changeCell id change).Numeric := by
  intro cell hcell
  obtain ⟨x, hlive⟩ := mem_cells_iff_exists.mp hcell
  rw [cell?_changeCell] at hlive
  split at hlive
  · obtain ⟨old, hold, rfl⟩ := Option.map_eq_some_iff.mp hlive
    exact hchange old (h old (mem_cells_iff_exists.mpr ⟨_, hold⟩))
  · exact h cell (mem_cells_iff_exists.mpr ⟨x, hlive⟩)

theorem Numeric.put_cell {c : Circuit} (h : c.Numeric) (id : CellId) {cell : Cell} (hcell : cell.Numeric) :
    (c.put id (.cell cell)).Numeric := by
  intro other hother
  obtain ⟨x, hlive⟩ := mem_cells_iff_exists.mp hother
  rw [cell?_put_cell] at hlive
  split at hlive
  · cases hlive
    exact hcell
  · exact h other (mem_cells_iff_exists.mpr ⟨x, hlive⟩)

theorem Numeric.put_wire {c : Circuit} (h : c.Numeric) {id : WireId} (hnew : c.live.get? id = none)
    (wire : Wire) : (c.put id (.wire wire)).Numeric := by
  intro cell hcell
  obtain ⟨x, hlive⟩ := mem_cells_iff_exists.mp hcell
  rw [cell?_put_wire hnew] at hlive
  exact h cell (mem_cells_iff_exists.mpr ⟨x, hlive⟩)

theorem Numeric.placed {c : Circuit} (h : c.Numeric) : c.Placed := fun cell hcell => (h cell hcell).1

/-- What stores no pulse carries no template. -/
theorem Placed.numeric_of_dark {c : Circuit} (h : c.Placed)
    (hdark : ∀ {id cell}, c.cell? id = some cell → cell.fire = .none) : c.Numeric := by
  intro cell hcell
  obtain ⟨id, hlive⟩ := mem_cells_iff_exists.mp hcell
  refine ⟨h cell hcell, ?_⟩
  rw [hdark hlive]
  exact Fire.numeric_none

theorem Placed.keepPulses {c : Circuit} (h : c.Placed) (kept : List CellId) :
    (c.keepPulses kept).Placed := by
  intro cell hcell
  have hmap : c.keepPulses kept = c.mapCells fun cell =>
      if kept.contains cell.id then cell else { cell with fire := .none } := rfl
  obtain ⟨id, hlive⟩ := mem_cells_iff_exists.mp hcell
  rw [hmap, cell?_mapCells] at hlive
  obtain ⟨old, hold, rfl⟩ := Option.map_eq_some_iff.mp hlive
  have hplaced := h old (mem_cells_iff_exists.mpr ⟨id, hold⟩)
  split <;> exact hplaced

end Circuit

end PulseCircuit
