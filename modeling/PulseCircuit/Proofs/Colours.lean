import PulseCircuit.Proofs.BeatEffect
import PulseCircuit.Proofs.Likeness

/-!
# Colours do not leak

What a cell answers in one colour does not depend on the pulses that are stored in the others. A walk folds the
pulses of its own colour only, so the other colours could come in through the ticks it imagines: projection and
comparison look at all of them. But projection asks no more of a cell than whether it is lit, and all circuits
imagined from one circuit are that circuit with some cells put out (`PutOut`), which are compared by what is
lit in them (`sameState_iff_litAt`).

* `AgreeIn`: what two circuits have in common if they differ in the other colours only;
* `Screened`: circuits imagined from two such circuits, while the same cells are lit;
* `lawful_screen`, `lawful_present`: how such circuits are alike;
* `Reachable.colours_apart`: questions in one colour have the same answers.
-/

namespace PulseCircuit

open Evaluator

/-- The cell with the pulses of one colour only. -/
def Cell.only (colour : Colour) (cell : Cell) : Cell :=
  { cell with fire := Fire.none.set colour (cell.fire.get colour) }

theorem Cell.get_only (colour : Colour) (cell : Cell) :
    (cell.only colour).fire.get colour = cell.fire.get colour :=
  Fire.get_set_self ..

/-- Cells that agree in a colour agree in all that does not look at the other colours. -/
theorem Cell.congr_of_only {α : Type} {colour : Colour} {cell other : Cell}
    (h : other.only colour = cell.only colour) (f : Cell → α) (hf : ∀ cell, f (cell.only colour) = f cell) :
    f other = f cell := by
  rw [← hf other, h, hf]

namespace Circuit

variable {colour : Colour} {validate : Bool} {c d : Circuit}

/-! ## Circuits that agree in a colour -/

/-- The same rows in the same order, but for the pulses of other colours. -/
structure AgreeIn (colour : Colour) (c d : Circuit) : Prop where
  keys : d.live.keys = c.live.keys
  wire : ∀ id, d.wire? id = c.wire? id
  cell : ∀ id, (d.cell? id).map (Cell.only colour) = (c.cell? id).map (Cell.only colour)

/-- The same cells are lit, whatever colour their pulses have. -/
def LitAlike (c d : Circuit) : Prop :=
  ∀ cell ∈ c.cells, ∀ other ∈ d.cells, other.id = cell.id → other.fire.isLit = cell.fire.isLit

instance (c d : Circuit) : Decidable (LitAlike c d) := inferInstanceAs (Decidable (∀ cell ∈ _, _))

/-- No wire looks away from its own tick. -/
def Untimed (c : Circuit) : Prop := ∀ wire ∈ c.wires, wire.timing = .now

instance (c : Circuit) : Decidable c.Untimed := inferInstanceAs (Decidable (∀ wire ∈ _, _))

/-- Circuits agree if they are equal once the other colours are taken out of them. -/
theorem agreeIn_of_only (h : (c.mapCells (Cell.only colour)).live = (d.mapCells (Cell.only colour)).live) :
    AgreeIn colour c d := by
  constructor
  · have hkeys := congrArg Table.keys h
    rwa [mapCells, mapCells, Table.keys_map, Table.keys_map, eq_comm] at hkeys
  · intro id
    rw [← wire?_mapCells d (Cell.only colour), ← wire?_mapCells c (Cell.only colour), wire?, wire?, h]
  · intro id
    rw [← cell?_mapCells, ← cell?_mapCells, cell?, cell?, h]

namespace AgreeIn

theorem exists_cell (h : AgreeIn colour c d) {id : CellId} {cell : Cell} (hcell : c.cell? id = some cell) :
    ∃ other, d.cell? id = some other ∧ other.only colour = cell.only colour := by
  have hsame := h.cell id
  rw [hcell, Option.map_some] at hsame
  exact Option.map_eq_some_iff.mp hsame

theorem cell?_none (h : AgreeIn colour c d) {id : CellId} (hcell : c.cell? id = none) : d.cell? id = none := by
  have hsame := h.cell id
  rw [hcell, Option.map_none] at hsame
  exact Option.map_eq_none_iff.mp hsame

theorem litAt (h : AgreeIn colour c d) (hlit : LitAlike c d) : d.litAt = c.litAt := by
  funext id
  unfold Circuit.litAt
  cases hcell : c.cell? id with
  | none => rw [h.cell?_none hcell]
  | some cell =>
    obtain ⟨other, hother, honly⟩ := h.exists_cell hcell
    have hid : other.id = cell.id := Cell.congr_of_only honly Cell.id fun _ => rfl
    have hparent : other.parent = cell.parent := Cell.congr_of_only honly Cell.parent fun _ => rfl
    have hsame := hlit cell (mem_cells_iff_exists.mpr ⟨id, hcell⟩) other
      (mem_cells_iff_exists.mpr ⟨id, hother⟩) hid
    rw [hother, Option.map_some, Option.map_some, hparent, hsame]

/-- A look-up finds a row of the same kind in both, or nothing in both. -/
theorem find (h : AgreeIn colour c d) (id : Id) :
    (∃ cell other, c.live.get? id = some (.cell cell) ∧ d.live.get? id = some (.cell other) ∧
      other.only colour = cell.only colour) ∨
    (∃ wire, c.live.get? id = some (.wire wire) ∧ d.live.get? id = some (.wire wire)) ∨
    (c.live.get? id = none ∧ d.live.get? id = none) := by
  cases hrow : c.live.get? id with
  | none =>
    have hother : d.live.get? id = none := by
      rw [Table.get?_eq_none_iff, h.keys]
      exact Table.get?_eq_none_iff.mp hrow
    exact Or.inr (Or.inr ⟨rfl, hother⟩)
  | some row =>
    cases row with
    | cell cell =>
      have hcell : c.cell? ⟨id.raw⟩ = some cell := cell?_eq_some_iff.mpr hrow
      obtain ⟨other, hother, honly⟩ := h.exists_cell hcell
      exact Or.inl ⟨cell, other, rfl, cell?_eq_some_iff.mp hother, honly⟩
    | wire wire =>
      have hwire : c.wire? ⟨id.raw⟩ = some wire := wire?_eq_some_iff.mpr hrow
      rw [← h.wire] at hwire
      exact Or.inr (Or.inl ⟨wire, rfl, wire?_eq_some_iff.mp hwire⟩)

theorem likewise_cell (h : AgreeIn colour c d) (id : CellId) :
    Likewise (fun cell other => other.only colour = cell.only colour) (c.cell id) (d.cell id) := by
  unfold Circuit.cell
  rcases h.find id with ⟨cell, other, hcell, hother, honly⟩ | ⟨wire, hcell, hother⟩ | ⟨hcell, hother⟩
  · rw [hcell, hother]
    exact .ok honly
  · rw [hcell, hother]
    exact .error _
  · rw [hcell, hother]
    exact .error _

theorem wire_eq (h : AgreeIn colour c d) (id : WireId) : d.wire id = c.wire id := by
  unfold Circuit.wire
  rcases h.find id with ⟨cell, other, hcell, hother, -⟩ | ⟨wire, hcell, hother⟩ | ⟨hcell, hother⟩
  · rw [hcell, hother]
  · rw [hcell, hother]
  · rw [hcell, hother]

end AgreeIn

/-! ## Circuits with some cells put out -/

/-- The circuit with the pulses of some cells taken out. -/
structure PutOut (c d : Circuit) : Prop where
  linked : d.Linked
  layout : c.SameLayout d
  cell : ∀ {id cell}, c.cell? id = some cell →
    ∃ fire, d.cell? id = some { cell with fire := fire } ∧ (fire = cell.fire ∨ fire = .none)

namespace PutOut

variable {e : Circuit}

theorem refl (h : c.Linked) : PutOut c c := ⟨h, .refl c, fun hcell => ⟨_, hcell, Or.inl rfl⟩⟩

theorem project (h : PutOut c d) (hproject : d.project validate = .ok e) : PutOut c e where
  linked := h.linked.of_project hproject
  layout := h.layout.trans (.of_project hproject)
  cell := by
    intro id cell hcell
    obtain ⟨fire, hfire, hkept⟩ := h.cell hcell
    obtain ⟨fire', hfire', habove, hbare⟩ := h.linked.rooted.cell?_of_project hproject hfire
    refine ⟨fire', hfire', ?_⟩
    by_cases hlit : d.LitAbove id
    · rw [habove hlit]
      exact hkept
    · exact Or.inr (hbare hlit)

theorem exists_cell (h : PutOut c d) {id : CellId} {cell : Cell} (hcell : d.cell? id = some cell) :
    ∃ old, c.cell? id = some old ∧ cell = { old with fire := cell.fire } ∧
      (cell.fire = old.fire ∨ cell.fire = .none) := by
  have hsame := h.layout.cell id
  rw [hcell, Option.map_some] at hsame
  obtain ⟨old, hold, -⟩ := Option.map_eq_some_iff.mp hsame.symm
  obtain ⟨fire, hfire, hkept⟩ := h.cell hold
  rw [hcell] at hfire
  cases hfire
  exact ⟨old, hold, rfl, hkept⟩

/-- If a cell is lit in both of two such circuits, or in neither, it holds the same in both. -/
theorem cell?_eq (h : PutOut c d) (h' : PutOut c e) (hlit : d.litAt = e.litAt) (id : CellId) :
    e.cell? id = d.cell? id := by
  cases hcell : c.cell? id with
  | none =>
    have hd := h.layout.cell id
    have he := h'.layout.cell id
    rw [hcell, Option.map_none] at hd he
    rw [Option.map_eq_none_iff.mp hd, Option.map_eq_none_iff.mp he]
  | some cell =>
    obtain ⟨fire, hfire, hkept⟩ := h.cell hcell
    obtain ⟨fire', hfire', hkept'⟩ := h'.cell hcell
    have hid := congrFun hlit id
    rw [litAt, litAt, hfire, hfire'] at hid
    have hsame : fire.isLit = fire'.isLit := by simpa using hid
    suffices hfires : fire = fire' by rw [hfire, hfire', hfires]
    rcases hkept with rfl | rfl
    · rcases hkept' with rfl | rfl
      · rfl
      · exact Fire.eq_none_of_dim hsame
    · exact (Fire.eq_none_of_dim hsame.symm).symm

theorem numeric (h : PutOut c d) (hnumeric : c.Numeric) : d.Numeric := by
  intro cell hmem
  obtain ⟨id, hcell⟩ := mem_cells_iff_exists.mp hmem
  obtain ⟨old, hold, hsame, hkept⟩ := h.exists_cell hcell
  have hnumbers := hnumeric old (mem_cells_iff_exists.mpr ⟨id, hold⟩)
  constructor
  · rw [hsame]
    exact hnumbers.1
  · rcases hkept with hfire | hfire
    · rw [hfire]
      exact hnumbers.2
    · rw [hfire]
      exact Fire.numeric_none

/-- Circuits that come from one by putting cells out show the same state if the same cells are lit. -/
theorem sameState_iff_litAt (h : PutOut c d) (h' : PutOut c e) (hnumeric : c.Numeric) :
    d.sameState e = true ↔ d.litAt = e.litAt := by
  have hkeys : d.live.keys = e.live.keys := h.layout.keys.trans h'.layout.keys.symm
  constructor
  · exact litAt_of_sameState hkeys
  · intro hlit
    apply sameState_of_get? (h.numeric hnumeric) (size_eq_of_keys hkeys)
    apply get?_eq_of_lookups
    · exact h.cell?_eq h' hlit
    · intro id
      rw [h'.layout.wire, h.layout.wire]

end PutOut

/-! ## What is imagined from circuits that agree -/

/-- Projection puts out the same cells of circuits that agree, if the same cells are lit in them. -/
theorem AgreeIn.project {c' d' : Circuit} (h : AgreeIn colour c d) (hlit : d.litAt = c.litAt) (hc : c.Linked)
    (hd : d.Linked) (hproject : c.project validate = .ok c') (hproject' : d.project validate = .ok d') :
    AgreeIn colour c' d' ∧ d'.litAt = c'.litAt := by
  have hcells : ∀ id, (d'.cell? id).map (Cell.only colour) = (c'.cell? id).map (Cell.only colour) ∧
      d'.litAt id = c'.litAt id := by
    intro id
    have hid := congrFun hlit id
    unfold Circuit.litAt at hid ⊢
    cases hcell : c.cell? id with
    | none =>
      have hc' := (SameLayout.of_project hproject).cell id
      have hd' := (SameLayout.of_project hproject').cell id
      rw [hcell, Option.map_none] at hc'
      rw [h.cell?_none hcell, Option.map_none] at hd'
      rw [Option.map_eq_none_iff.mp hc', Option.map_eq_none_iff.mp hd']
      exact ⟨rfl, rfl⟩
    | some cell =>
      obtain ⟨other, hother, honly⟩ := h.exists_cell hcell
      obtain ⟨fire, hfire, hkept, hout⟩ := hc.rooted.cell?_of_project hproject hcell
      obtain ⟨fire', hfire', hkept', hout'⟩ := hd.rooted.cell?_of_project hproject' hother
      rw [litAbove_congr hlit] at hkept' hout'
      rw [hcell, hother] at hid
      rw [hfire, hfire']
      by_cases habove : c.LitAbove id
      · rw [hkept habove, hkept' habove]
        exact ⟨congrArg some honly, hid⟩
      · rw [hout habove, hout' habove]
        constructor
        · exact congrArg some (Cell.congr_of_only honly
            (fun cell => ({ cell with fire := .none } : Cell).only colour) fun _ => rfl)
        · have hparent : other.parent = cell.parent := Cell.congr_of_only honly Cell.parent fun _ => rfl
          rw [Option.map_some, Option.map_some, hparent]
  constructor
  · constructor
    · rw [keys_project hproject, keys_project hproject', h.keys]
    · intro id
      rw [wire?_of_project hproject, wire?_of_project hproject', h.wire]
    · exact fun id => (hcells id).1
  · exact funext fun id => (hcells id).2

/-- Two circuits that agree in a colour, imagined from circuits in which the same cells are lit. -/
structure Screened (colour : Colour) (c d c' d' : Circuit) : Prop where
  left : PutOut c c'
  right : PutOut d d'
  agree : AgreeIn colour c' d'
  lit : d'.litAt = c'.litAt

namespace Screened

variable {c' d' c'' d'' : Circuit}

theorem project (h : Screened colour c d c' d') (validate : Bool) :
    Likewise (Screened colour c d) (c'.project validate) (d'.project validate) := by
  obtain ⟨e, hproject⟩ := h.left.linked.project_ok validate
  obtain ⟨e', hproject'⟩ := h.right.linked.project_ok validate
  obtain ⟨hagree, hlit⟩ := h.agree.project h.lit h.left.linked h.right.linked hproject hproject'
  rw [hproject, hproject']
  exact .ok ⟨h.left.project hproject, h.right.project hproject', hagree, hlit⟩

/-- What shows nothing new on one side of the screen shows nothing new on the other. -/
theorem sameState_eq (h : Screened colour c d c' d') (h' : Screened colour c d c'' d'') (hc : c.Numeric)
    (hd : d.Numeric) : d'.sameState d'' = c'.sameState c'' := by
  rw [Bool.eq_iff_iff, h.left.sameState_iff_litAt h'.left hc, h.right.sameState_iff_litAt h'.right hd,
    h.lit, h'.lit]

end Screened

end Circuit

/-! ## Likenesses -/

namespace Evaluator

open Circuit

variable {colour : Colour} {validate : Bool} {c d : Circuit}

/-- Circuits that agree in a colour look alike to it. -/
def within (colour : Colour) (looks : Timing → Prop) (circuit : Circuit → Circuit → Prop) : Likeness where
  colour := colour
  mirrored := false
  looks := looks
  circuit := circuit
  cell cell other := other.only colour = cell.only colour
  peak := Eq

/-- A fold looks at no pulse that is stored. -/
theorem fold_of_only {source source' target target' : Cell} (hsource : source'.only colour = source.only colour)
    (htarget : target'.only colour = target.only colour) (previous next : Peak) (wire : Wire) :
    previous.fold next ⟨source', target', wire⟩ = previous.fold next ⟨source, target, wire⟩ := by
  rw [Cell.congr_of_only hsource (fun source => previous.fold next ⟨source, target', wire⟩) fun _ => rfl,
    Cell.congr_of_only htarget (fun target => previous.fold next ⟨source, target, wire⟩) fun _ => rfl]

theorem lawful_within {looks : Timing → Prop} {circuit : Circuit → Circuit → Prop}
    (hagree : ∀ {c d}, circuit c d → AgreeIn colour c d)
    (hlooks : ∀ {c d id wire}, circuit c d → c.wire id = .ok wire → looks wire.timing.flip)
    (hproject : ∀ {c d}, (within colour looks circuit).Leaves → circuit c d →
      Likewise circuit (c.project validate) (d.project validate))
    (hsameState : ∀ {c c' d d'}, (within colour looks circuit).Leaves → circuit c d → circuit c' d' →
      d.sameState d' = c.sameState c') : (within colour looks circuit).Lawful validate where
  cells h id := (hagree h).likewise_cell id
  wires := by
    intro c d h id
    rw [(hagree h).wire_eq]
    cases c.wire id with
    | ok wire => exact .ok rfl
    | error fault => exact .error fault
  looks h hwire _ := hlooks h hwire
  size h := size_eq_of_keys (hagree h).keys
  id h := Cell.congr_of_only h Cell.id fun _ => rfl
  inputs h := Cell.congr_of_only h Cell.inputs fun _ => rfl
  stored h := (Cell.congr_of_only h (fun cell => Peak.ofPulse? (cell.fire.get colour) []) fun cell => by
    rw [cell.get_only]).symm
  nothing := rfl
  final := by
    rintro peak _ rfl
    rfl
  fold := by
    rintro source source' target target' previous _ next _ wire hsource htarget rfl rfl
    exact (fold_of_only hsource htarget previous next wire).symm
  project := hproject
  sameState := hsameState

/-- While the same cells are lit, circuits that agree look alike at all timings. -/
theorem lawful_screen (hc : c.Numeric) (hd : d.Numeric) :
    (within colour (fun _ => True) (Screened colour c d)).Lawful validate := by
  apply lawful_within
  · exact Screened.agree
  · intros
    trivial
  · intro c' d' _ h
    exact h.project validate
  · intro c' c'' d' d'' _ h h'
    exact h.sameState_eq h' hc hd

/-- While nothing is timed, circuits that agree look alike in the present. -/
theorem lawful_present :
    (within colour (· = .now) fun c d => AgreeIn colour c d ∧ c.Untimed).Lawful validate := by
  apply lawful_within
  · exact And.left
  · intro c d id wire h hwire
    rw [h.2 wire (mem_wires_iff_exists.mpr ⟨id, wire_ok_iff.mp hwire⟩)]
    rfl
  · rintro c d ⟨timing, hnow, hnot⟩
    exact absurd hnow hnot
  · rintro c c' d d' ⟨timing, hnow, hnot⟩
    exact absurd hnow hnot

theorem getPeak_eq {looks : Timing → Prop} {circuit : Circuit → Circuit → Prop}
    (hl : (within colour looks circuit).Lawful validate) (h : circuit c d) (id : CellId) {timing : Timing}
    (hlooks : looks timing) :
    d.getPeak validate id colour timing [] [] = c.getPeak validate id colour timing [] [] := by
  have halike : Alike (within colour looks circuit) _ _ := alike_alone h validate
  exact (halike.reply hl id timing hlooks).1.eq.symm

end Evaluator

namespace Circuit

/-! ## The same answers -/

/-- A question about a live cell of a circuit alone is answered. -/
theorem Sound.exists_peak {c : Circuit} (h : c.Sound) (hplaced : c.Placed) (validate : Bool) {id : CellId}
    {cell : Cell} (hcell : c.cell id = .ok cell) (colour : Colour) (timing : Timing) :
    ∃ peak, c.getPeak validate id colour timing [] [] = .ok peak := by
  have hserves : Serves (.alone validate c) (History.alone validate c).fresh := by
    apply Serves.fresh
    intro d hd
    rw [List.mem_singleton.mp hd]
    exact ⟨h, hplaced⟩
  rcases hserves.reply (q := ⟨id, colour, timing⟩) (cell_ok_iff.mp hcell) with hanswer |
    ⟨x, ⟨-, side, snapshot, -, -, hhead, -⟩, -⟩
  · exact hanswer
  · rw [History.given_alone] at hhead
    cases hhead

/-- Two circuits that differ only in what cells hold in other colours answer each question about a live cell
with the same peak, if the same cells are lit in both. If no wire is timed, they do so for the present whatever
is lit. -/
theorem Reachable.colours_apart {c d : Circuit} (hc : c.Reachable) (hd : d.Reachable) (hcn : c.Numeric)
    (hdn : d.Numeric) {colour : Colour} (hagree : AgreeIn colour c d) (validate : Bool) {id : CellId}
    {cell : Cell} (hcell : c.cell id = .ok cell) :
    (LitAlike c d → ∀ timing, ∃ peak, c.getPeak validate id colour timing [] [] = .ok peak ∧
      d.getPeak validate id colour timing [] [] = .ok peak) ∧
    (c.Untimed → ∃ peak, c.getPeak validate id colour .now [] [] = .ok peak ∧
      d.getPeak validate id colour .now [] [] = .ok peak) := by
  constructor
  · intro hlit timing
    obtain ⟨peak, hpeak⟩ := hc.sound.exists_peak hcn.placed validate hcell colour timing
    have hscreened : Screened colour c d c d :=
      ⟨.refl hc.sound.linked, .refl hd.sound.linked, hagree, hagree.litAt hlit⟩
    exact ⟨peak, hpeak, (getPeak_eq (lawful_screen hcn hdn) hscreened id trivial).trans hpeak⟩
  · intro huntimed
    obtain ⟨peak, hpeak⟩ := hc.sound.exists_peak hcn.placed validate hcell colour .now
    exact ⟨peak, hpeak, (getPeak_eq lawful_present ⟨hagree, huntimed⟩ id rfl).trans hpeak⟩

/-- A lit cell below the root, which is lit in some colour, and a second cell that it feeds and is fed by. -/
def beacon (colour : Colour) (timing : Timing) : Circuit :=
  initial.performAll true
    [.createCell .root .relay .origin, .createCell .root .relay .origin, .fireCell .root colour,
      .fireCell ⟨1⟩ .red, .createWire ⟨1⟩ ⟨2⟩ .any timing, .createWire ⟨2⟩ ⟨1⟩ .any .now]

theorem reachable_beacon (colour : Colour) (timing : Timing) : (beacon colour timing).Reachable :=
  .performAll .initial true _

/-- The same with a dark root. -/
def shaded : Circuit := (beacon .green .now).performAll true [.clearFire .root .green]

theorem colours_apart_beacon :
    (∃ peak, (beacon .green .past).getPeak true ⟨2⟩ .red .now [] [] = .ok peak ∧
      (beacon .blue .past).getPeak true ⟨2⟩ .red .now [] [] = .ok peak) ∧
    ¬ LitAlike (beacon .green .now) shaded ∧
    ∃ peak, (beacon .green .now).getPeak true ⟨2⟩ .red .now [] [] = .ok peak ∧
      shaded.getPeak true ⟨2⟩ .red .now [] [] = .ok peak := by
  refine ⟨?_, by decide, ?_⟩
  · have hagree : AgreeIn .red (beacon .green .past) (beacon .blue .past) := agreeIn_of_only (by decide)
    exact (Reachable.colours_apart (reachable_beacon ..) (reachable_beacon ..) (by decide) (by decide) hagree
      true rfl).1 (by decide) .now
  · have hagree : AgreeIn .red (beacon .green .now) shaded := agreeIn_of_only (by decide)
    exact (Reachable.colours_apart (reachable_beacon ..) (.performAll (reachable_beacon ..) true _) (by decide)
      (by decide) hagree true rfl).2 (by decide)

end Circuit

end PulseCircuit
