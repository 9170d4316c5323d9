import PulseCircuit.Proofs.Likeness

/-!
# Time can be reversed

Turn the timing of every wire round, swap the recorded past and the recorded future, and ask at the opposite
timing: the answer is the same, and so is the work it takes. Nothing in a walk tells the two directions of time
apart. Projection and comparison do not look at timings (`project_mirror`, `sameState_mirror`), and neither does
folding, so a history and its mirror image are alike (`lawful_reversal`, `alike_mirror`).
-/

namespace PulseCircuit

/-! ## Mirror images -/

def Wire.mirror (wire : Wire) : Wire := { wire with timing := wire.timing.flip }

def Row.mirror : Row → Row
  | .cell c => .cell c
  | .wire w => .wire w.mirror

/-- The circuit with the timing of every wire turned round, archived wires included. -/
def Circuit.mirror (c : Circuit) : Circuit :=
  { c with
    live := c.live.map fun _ row => row.mirror
    archive := c.archive.map fun _ row => row.mirror }

theorem Wire.mirror_mirror (wire : Wire) : wire.mirror.mirror = wire := by
  unfold mirror
  rw [Timing.flip_flip]

theorem Wire.mirror_inj {wire other : Wire} : wire.mirror = other.mirror ↔ wire = other := by
  constructor
  · intro h
    have hback := congrArg mirror h
    rwa [mirror_mirror, mirror_mirror] at hback
  · intro h
    rw [h]

/-- Mirror images of rows are compared as the rows are. -/
theorem Row.beq_mirror (row other : Row) : (row.mirror == other.mirror) = (row == other) := by
  rcases row with c | w <;> rcases other with c' | w'
  · rfl
  · rfl
  · rfl
  · change (w.mirror == w'.mirror) = (w == w')
    rw [Bool.eq_iff_iff, beq_iff_eq, beq_iff_eq, Wire.mirror_inj]

namespace Circuit

variable (c d : Circuit)

theorem get?_mirror (id : Id) : c.mirror.live.get? id = (c.live.get? id).map Row.mirror :=
  Table.get?_map _ c.live id

theorem cell_mirror (id : CellId) : c.mirror.cell id = c.cell id := by
  unfold cell
  rw [get?_mirror]
  rcases c.live.get? id with - | (cell | wire) <;> rfl

theorem wire_mirror (id : WireId) : c.mirror.wire id = (c.wire id).map Wire.mirror := by
  unfold wire
  rw [get?_mirror]
  rcases c.live.get? id with - | (cell | wire) <;> rfl

theorem size_mirror : c.mirror.size = c.size := by
  simp [mirror, size, Table.size, Table.map]

theorem cells_mirror : c.mirror.cells = c.cells := by
  unfold cells
  have hvalues : c.mirror.live.values = c.live.values.map Row.mirror := by
    simp [mirror, Table.values, Table.map, List.map_map, Function.comp_def]
  rw [hvalues, List.filterMap_map]
  congr 1
  funext row
  cases row <;> rfl

theorem wires_mirror : c.mirror.wires = c.wires.map Wire.mirror := by
  unfold wires
  have hvalues : c.mirror.live.values = c.live.values.map Row.mirror := by
    simp [mirror, Table.values, Table.map, List.map_map, Function.comp_def]
  rw [hvalues, List.filterMap_map, List.map_filterMap]
  congr 1
  funext row
  cases row <;> rfl

/-! ## Projection and comparison -/

theorem climbToLit_mirror (origin : CellId) (fuel : Nat) (id : Option CellId) :
    c.mirror.climbToLit origin fuel id = c.climbToLit origin fuel id := by
  induction fuel generalizing id with
  | zero =>
    cases id with
    | none => rfl
    | some id =>
      rw [climbToLit, climbToLit, cell_mirror]
  | succ fuel ih =>
    cases id with
    | none => rfl
    | some id =>
      rw [climbToLit, climbToLit, cell_mirror]
      simp only [ih]

theorem sheltered_mirror : c.mirror.sheltered = c.sheltered := by
  unfold sheltered litAbove
  simp only [cells_mirror, cell_mirror, size_mirror, climbToLit_mirror]

theorem keepPulses_mirror (kept : List CellId) : c.mirror.keepPulses kept = (c.keepPulses kept).mirror := by
  unfold keepPulses mirror
  congr 1
  apply Table.ext
  simp only [Table.map, List.map_map]
  apply List.map_congr_left
  intro row _
  rcases row with ⟨id, cell | wire⟩ <;> rfl

theorem reachesRoot_mirror (fuel : Nat) (id : CellId) : c.mirror.reachesRoot fuel id = c.reachesRoot fuel id := by
  induction fuel generalizing id with
  | zero => rfl
  | succ fuel ih =>
    rw [reachesRoot, reachesRoot, cell_mirror]
    simp only [ih]

theorem inputDefect?_mirror (cell : Cell) (input : WireId) :
    c.mirror.inputDefect? cell input = c.inputDefect? cell input := by
  unfold inputDefect?
  rw [wire_mirror]
  cases c.wire input <;> rfl

theorem outputDefect?_mirror (cell : Cell) (output : WireId) :
    c.mirror.outputDefect? cell output = c.outputDefect? cell output := by
  unfold outputDefect?
  rw [wire_mirror]
  cases c.wire output <;> rfl

/-- A row has the same defect as its mirror image. -/
theorem rowDefect?_mirror (row : Row) : c.mirror.rowDefect? row.mirror = c.rowDefect? row := by
  cases row with
  | cell cell =>
    change c.mirror.cellDefect? cell = c.cellDefect? cell
    unfold cellDefect? parentDefect? ascentDefect?
    rw [size_mirror, reachesRoot_mirror, funext (c.inputDefect?_mirror cell),
      funext (c.outputDefect?_mirror cell)]
    unfold childDefect?
    simp only [cell_mirror]
  | wire wire =>
    change c.mirror.wireDefect? wire.mirror = c.wireDefect? wire
    unfold wireDefect? sourceDefect? targetDefect?
    rw [cell_mirror, cell_mirror]
    rfl

theorem check_mirror (id : Id) : c.mirror.check id = c.check id := by
  unfold check row
  rw [get?_mirror]
  cases c.live.get? id with
  | none => rfl
  | some row =>
    have hdefect := c.rowDefect?_mirror row
    simp only [Option.map_some, bind, Except.bind, hdefect]

theorem checkAll_mirror : c.mirror.checkAll = c.checkAll := by
  unfold checkAll
  rw [cells_mirror, wires_mirror, List.map_map, funext c.check_mirror]
  rfl

/-- The projection of the mirror image is the mirror image of the projection. -/
theorem project_mirror (validate : Bool) :
    c.mirror.project validate = (c.project validate).map mirror := by
  unfold project
  rw [sheltered_mirror]
  cases c.sheltered with
  | error fault => rfl
  | ok kept =>
    simp only [bind, Except.bind, keepPulses_mirror, checkAll_mirror]
    cases validate with
    | false => rfl
    | true => cases (c.keepPulses kept).checkAll <;> rfl

theorem sameState_mirror : c.mirror.sameState d.mirror = c.sameState d := by
  unfold sameState
  rw [size_mirror, size_mirror]
  congr 1
  have hrows : c.mirror.live.rows = c.live.rows.map fun row => (row.1, row.2.mirror) := rfl
  rw [hrows, List.all_map]
  congr 1
  funext row
  simp only [Function.comp_apply, get?_mirror]
  cases d.live.get? row.1 with
  | none => rfl
  | some other => exact Row.beq_mirror row.2 other

end Circuit

/-! ## Mirrored histories -/

namespace Evaluator

/-- A history and its mirror image. All but the direction of time is the same. -/
def reversal (colour : Colour) : Likeness where
  colour := colour
  mirrored := true
  looks _ := True
  circuit c d := d = c.mirror
  cell := Eq
  peak := Eq

theorem lawful_reversal (colour : Colour) (validate : Bool) : (reversal colour).Lawful validate where
  cells := by
    rintro c d rfl id
    rw [c.cell_mirror]
    cases c.cell id with
    | ok cell => exact .ok rfl
    | error fault => exact .error fault
  wires := by
    rintro c d rfl id
    rw [c.wire_mirror]
    cases c.wire id with
    | ok wire => exact .ok rfl
    | error fault => exact .error fault
  looks _ _ _ := trivial
  size := by
    rintro c d rfl
    exact c.size_mirror
  id := by
    rintro cell _ rfl
    rfl
  inputs := by
    rintro cell _ rfl
    rfl
  stored := by
    rintro cell _ rfl
    rfl
  nothing := rfl
  final := by
    rintro peak _ rfl
    rfl
  fold := by
    rintro source _ target _ previous _ next _ wire rfl rfl rfl rfl
    -- a fold looks at the ends of the wire only
    rfl
  project := by
    rintro c d - rfl
    rw [c.project_mirror]
    cases c.project validate with
    | ok projected => exact .ok rfl
    | error fault => exact .error fault
  sameState := by
    rintro c c' d d' - rfl rfl
    exact c.sameState_mirror c'

theorem lastGiven_mirror (present : Circuit) (given : List Circuit) :
    lastGiven present.mirror (given.map Circuit.mirror) = (lastGiven present given).mirror := by
  unfold lastGiven
  rw [List.getLast?_map, Option.getD_map]

/-- The ticks of a mirrored history are the mirror images of the opposite ones. -/
theorem givenAt_mirror (present : Circuit) (past future : List Circuit) (tick : Int) :
    givenAt present.mirror (future.map Circuit.mirror) (past.map Circuit.mirror) (-tick) =
      (givenAt present past future tick).mirror := by
  unfold givenAt
  rw [Int.neg_neg]
  rcases Int.lt_trichotomy tick 0 with hneg | rfl | hpos
  · rw [if_neg (by omega), if_pos hneg, ← List.map_take, lastGiven_mirror]
  · rfl
  · rw [if_pos (by omega), if_neg (by omega), ← List.map_take, lastGiven_mirror]

theorem alike_mirror (colour : Colour) (validate : Bool) (c : Circuit) (past future : List Circuit) :
    Alike (reversal colour) (ofHistory validate c past future)
      (ofHistory validate c.mirror (future.map Circuit.mirror) (past.map Circuit.mirror)) := by
  apply alike_ofHistory
  intro tick
  have htick : (reversal colour).tick tick = -tick := rfl
  rw [htick, Timeline.frame?_ofHistory, Timeline.frame?_ofHistory, givenAt_mirror, List.length_map,
    List.length_map]
  by_cases hgiven : -(past.length : Int) ≤ tick ∧ tick ≤ future.length
  · rw [if_pos hgiven, if_pos (by omega)]
    exact .some rfl
  · rw [if_neg hgiven, if_neg (by omega)]
    exact .none

end Evaluator

open Evaluator

/-- A question about a history and the opposite question about its mirror image have the same answer, be it a
peak or a fault, and take the same work. -/
theorem Circuit.time_reversal (validate : Bool) (c : Circuit) (past future : List Circuit) (id : CellId)
    (colour : Colour) (timing : Timing) :
    c.mirror.getPeak validate id colour timing.flip (future.map mirror) (past.map mirror) =
        c.getPeak validate id colour timing past future ∧
      ((peak id colour timing.flip).final
          (.ofHistory validate c.mirror (future.map mirror) (past.map mirror))).stats =
        ((peak id colour timing).final (.ofHistory validate c past future)).stats := by
  obtain ⟨hreply, hnext⟩ := (alike_mirror colour validate c past future).reply
    (lawful_reversal colour validate) id timing trivial
  constructor
  · exact hreply.eq.symm
  · exact hnext.stats

end PulseCircuit
