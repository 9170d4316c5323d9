import PulseCircuit.Proofs.BeatEffect

/-!
# Checked circuits are safe to use

Whoever reads a circuit from a file and checks its rows may ask it anything. With nothing recorded, all ticks
are imagined from the present, and projection keeps the layout of a circuit and the agreement of its rows. So
a question comes only upon cells and wires that are there in every tick, and it ends as every question to a
checked circuit does.

* `Walk.unfailing`: a walk over checked ticks of one layout has no fault of its own;
* `Circuit.Safe`, `Circuit.safe_of_checkAll`: every look, every projection and every question is answered, and
  a question about anything but a live cell fails as the look-up of the cell does;
* `wrongKind_coined`: that need not be for want of a row, since a pool may hand out any number.
-/

namespace PulseCircuit

open Circuit Evaluator

namespace Evaluator

variable {c : Circuit} {e e' : Evaluator}

/-- The circuit is checked and has the layout of another. -/
structure Resembles (c d : Circuit) : Prop where
  layout : c.SameLayout d
  checked : d.Checked

namespace Resembles

variable {d : Circuit}

theorem of_project (h : Resembles c d) {validate : Bool} {projected : Circuit}
    (hproject : d.project validate = .ok projected) : Resembles c projected where
  layout := h.layout.trans (.of_project hproject)
  checked := h.checked.of_project hproject

/-- The same cells are live in both. -/
theorem live_iff (h : Resembles c d) {id : CellId} :
    (∃ cell, d.cell? id = some cell) ↔ ∃ cell, c.cell? id = some cell := by
  constructor
  · rintro ⟨cell, hcell⟩
    obtain ⟨new, hnew, -⟩ := h.layout.symm.exists_cell hcell
    exact ⟨new, hnew⟩
  · rintro ⟨cell, hcell⟩
    obtain ⟨new, hnew, -⟩ := h.layout.exists_cell hcell
    exact ⟨new, hnew⟩

/-- The cell a wire starts at carries the id of a live one. -/
theorem source_live (h : Resembles c d) {wire : Wire} {source : Cell}
    (hsource : d.cell wire.source = .ok source) : ∃ cell, c.cell? source.id = some cell := by
  have hcell := cell_ok_iff.mp hsource
  rw [id_of_cell? h.checked.keyed hcell]
  exact h.live_iff.mp ⟨source, hcell⟩

end Resembles

/-- A task is about a live cell, and folds wires that are there. -/
def Task.Grounded (c : Circuit) : Task → Prop
  | .ask _ id _ | .compute _ id _ | .look _ id _ _ => ∃ cell, c.cell? id = some cell
  | .fold d _ _ _ inputs _ => Resembles c d ∧ ∀ input ∈ inputs, ∃ wire, d.wire? input = some wire

/-- Where all ticks are checked and of one layout, a walk ends with a peak, or at the depth it is allowed. -/
theorem Walk.unfailing {fuel : Nat} {task : Task} {answer : Except Fault Peak}
    (hwalk : Walk fuel task e answer e') (hframes : e.Throughout (Resembles c))
    (hgrounded : task.Grounded c) :
    (∃ peak, answer = .ok peak) ∨ ∃ id, answer = .error (.endless id) := by
  have hproject : ∀ {d projected : Circuit} {validate}, Resembles c d →
      d.project validate = .ok projected → Resembles c projected := fun h hproject =>
    h.of_project hproject
  induction hwalk with
  | cut => exact Or.inr ⟨_, rfl⟩
  | descend _ _ ih => exact ih hframes hgrounded
  | absent hframe hcell | lost hframe hcell =>
    obtain ⟨cell, hlive⟩ := (hframes _ _ hframe).live_iff.mpr hgrounded
    rw [cell_ok_iff.mpr hlive] at hcell
    cases hcell
  | gather hframe hcell _ _ ih =>
    have hsame := hframes _ _ hframe
    exact ih hframes ⟨hsame, fun input hinput =>
      hsame.checked.input_live (cell_ok_iff.mp hcell) hinput⟩
  | wireless hwire =>
    obtain ⟨wire, hlive⟩ := hgrounded.2 _ List.mem_cons_self
    rw [wire_ok_iff.mpr hlive] at hwire
    cases hwire
  | skip _ _ _ ih =>
    exact ih hframes ⟨hgrounded.1, fun input hinput => hgrounded.2 input (List.mem_cons_of_mem _ hinput)⟩
  | sourceless hwire _ hsource =>
    obtain ⟨source, hlive⟩ := hgrounded.1.checked.source_live (wire_ok_iff.mp hwire)
    rw [cell_ok_iff.mpr hlive] at hsource
    cases hsource
  | broken _ _ hsource _ ih =>
    rcases ih hframes (hgrounded.1.source_live hsource) with ⟨peak, hanswer⟩ | ⟨id, hanswer⟩
    · cases hanswer
    · cases hanswer
      exact Or.inr ⟨id, rfl⟩
  | proceed _ _ _ hlook _ _ _ ihrest =>
    exact ihrest (hlook.throughout hproject hframes)
      ⟨hgrounded.1, fun input hinput => hgrounded.2 input (List.mem_cons_of_mem _ hinput)⟩
  | stay _ ih | known _ _ _ _ ih => exact ih hframes hgrounded
  | unprojectable _ _ _ hcurrent hfault =>
    obtain ⟨d, hd⟩ := (hframes _ _ hcurrent).checked.project_ok _
    rw [hd] at hfault
    cases hfault
  | imagine _ _ _ hcurrent hnext _ _ ih =>
    exact ih (hframes.imagining ((hframes _ _ hcurrent).of_project hnext) _) hgrounded
  | reuse | again | frameless | stored | done | settle | deadEnd | adrift | stale =>
    exact Or.inl ⟨_, rfl⟩

end Evaluator

namespace Circuit

/-- What there is to ask of a circuit, and that it is answered. -/
structure Safe (c : Circuit) : Prop where
  /-- The cells below a live cell can be listed. -/
  subtree : ∀ id cell, c.cell id = .ok cell → ∃ below, c.subtree id = .ok below
  /-- A pulse above a live cell can be looked for. -/
  litAbove : ∀ id cell, c.cell id = .ok cell → ∃ found, c.litAbove id = .ok found
  /-- The circuit can be projected, and the outcome passes the check as well. -/
  project : ∀ validate, ∃ d, c.project validate = .ok d ∧ d.checkAll = .ok ()
  /-- A question about a live cell is answered. -/
  peak : ∀ validate id cell colour timing, c.cell id = .ok cell →
    ∃ peak, c.getPeak validate id colour timing [] [] = .ok peak
  /-- A question about an id that no row lies under finds nothing. -/
  absent : ∀ validate (id : CellId) colour timing, c.live.get? id = none →
    c.getPeak validate id colour timing [] [] = .error (.notFound id)
  /-- A question about an id under which a wire lies is told so. -/
  wire : ∀ validate (id : CellId) wire colour timing, c.live.get? id = some (.wire wire) →
    c.getPeak validate id colour timing [] [] = .error (.wrongKind id .cell)

/-- With nothing recorded, a question about a live cell of a checked circuit is answered. -/
theorem Checked.getPeak_ok {c : Circuit} (h : c.Checked) (hnumeric : c.Numeric) (validate : Bool)
    {id : CellId} {cell : Cell} (hcell : c.cell id = .ok cell) (colour : Colour) (timing : Timing) :
    ∃ peak, c.getPeak validate id colour timing [] [] = .ok peak := by
  have hframe := History.present_frame ⟨validate, c, [], []⟩
  have hwalk := walk_of_live ⟨id, colour, timing⟩ hframe hcell
  have hframes : (ofHistory validate c [] []).Throughout (Resembles c) := by
    refine throughout_ofHistory (fun d hd => ?_) validate
    obtain rfl : d = c := List.mem_singleton.mp hd
    exact ⟨.refl d, h⟩
  have hbounds : WithinBounds c [] [] (ofHistory validate c [] []) := by
    refine within_bounds (fun d hd => ?_) validate []
    obtain rfl : d = c := List.mem_singleton.mp hd
    exact ⟨h.checkAll_ok, h.keyed, hnumeric⟩
  rcases hwalk.unfailing hframes ⟨cell, cell_ok_iff.mp hcell⟩ with hok | ⟨x, hendless⟩
  · exact hok
  · exact absurd hendless (hbounds.answers ⟨id, colour, timing⟩ x)

/-- Nothing that is asked about an id without a cell gets further than the look-up. -/
theorem getPeak_of_absent {c : Circuit} (validate : Bool) {id : CellId} {fault : Fault}
    (hcell : c.cell id = .error fault) (colour : Colour) (timing : Timing) :
    c.getPeak validate id colour timing [] [] = .error fault :=
  (reply_of_absent ⟨id, colour, timing⟩ (History.present_frame ⟨validate, c, [], []⟩) hcell).2

/-- A circuit that holds numbers only and whose rows lie under their own ids is safe once it is checked. -/
theorem safe_of_checkAll {c : Circuit} (hkeyed : c.Keyed) (hnumeric : c.Numeric)
    (hcheck : c.checkAll = .ok ()) : c.Safe := by
  have hchecked := checked_of_checkAll hkeyed hcheck
  refine ⟨?_, ?_, ?_, ?_, ?_, ?_⟩
  · intro id cell hcell
    exact hchecked.subtree_ok (cell_ok_iff.mp hcell)
  · intro id cell hcell
    exact hchecked.litAbove_ok (cell_ok_iff.mp hcell)
  · intro validate
    obtain ⟨d, hproject⟩ := hchecked.project_ok validate
    exact ⟨d, hproject, (hchecked.of_project hproject).checkAll_ok⟩
  · intro validate id cell colour timing hcell
    exact hchecked.getPeak_ok hnumeric validate hcell colour timing
  · intro validate id colour timing hnone
    refine getPeak_of_absent validate ?_ colour timing
    rw [Circuit.cell, hnone]
  · intro validate id wire colour timing hwire
    refine getPeak_of_absent validate ?_ colour timing
    rw [Circuit.cell, hwire]

/-- A circuit as a file may give it: a lit cell below the lit root is listed three times, a loop over the tick
before is listed twice, and the pool counts wires from where it counts cells. -/
def hoarded : Circuit where
  live := .ofList
    [(⟨0⟩, .cell ⟨.root, none, .relay, .origin, [⟨1⟩, ⟨1⟩, ⟨1⟩], [], [], ⟨none, some .ping, none⟩, []⟩),
      (⟨1⟩, .cell ⟨⟨1⟩, some .root, .relay, .origin, [], [⟨-1⟩, ⟨-1⟩], [⟨-1⟩],
        ⟨some .raw, none, none⟩, []⟩),
      (⟨-1⟩, .wire ⟨⟨-1⟩, ⟨1⟩, ⟨1⟩, .any, .past⟩)]
  archive := .empty
  ids := { IdPool.empty with nextCell := 2, nextWire := 3 }

/-- A second loop has been made. -/
def coined : Circuit := hoarded.performAll true [.createWire ⟨1⟩ ⟨1⟩ .any .future]

theorem keyed_coined : coined.Keyed := keyed_of_rows (by decide)

theorem safe_coined : coined.Keyed ∧ coined.Numeric ∧ coined.checkAll = .ok () ∧ coined.Safe :=
  have hnumeric : coined.Numeric := by decide
  have hcheck : coined.checkAll = .ok () := by decide
  ⟨keyed_coined, hnumeric, hcheck, safe_of_checkAll keyed_coined hnumeric hcheck⟩

/-- So a question about a number that no cell has may fail although there is something. -/
theorem wrongKind_coined :
    coined.Keyed ∧ coined.Numeric ∧ coined.checkAll = .ok () ∧ (∀ cell, coined.cell ⟨3⟩ ≠ .ok cell) ∧
      coined.getPeak true ⟨3⟩ .red .now [] [] = .error (.wrongKind ⟨3⟩ .cell) := by
  refine ⟨keyed_coined, by decide, by decide, ?_, ?_⟩
  · rintro cell ⟨⟩
  · rfl

end Circuit

end PulseCircuit
