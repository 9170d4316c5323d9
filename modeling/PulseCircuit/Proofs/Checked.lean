import Mathlib.Algebra.Order.BigOperators.Group.List
import Mathlib.Tactic.Ring
import PulseCircuit.Proofs.Ascent

/-!
# What a passed check is worth

A circuit that was read from a file may list a child or a wire more than once and take its ids from any
pool, and still pass the check of its rows. The check looks at each row and at the rows one link away.
That is enough for the walks along links: each link they follow leads to a row, and each way down is as
short as the ways up are.

* `parentDefect?_eq_none_iff` and the like: what each question of the check asks for;
* `Checked.child_live`, `Checked.input_live` and the like: no link leads nowhere;
* `Checked.litAbove_ok`, `Checked.project_ok`, `Checked.of_project`: a checked circuit has a projection,
  which is checked again;
* `Checked.subtree_ok`: the walk down comes to an end, in no more steps than it is allowed.
-/

namespace PulseCircuit

namespace Circuit

variable {c d : Circuit}

/-- The check of all rows finds nothing in a circuit whose rows have no defects. -/
theorem Checked.checkAll_ok (h : c.Checked) : c.checkAll = .ok () := by
  refine forM_ok fun id hid => ?_
  obtain ⟨row, hrow⟩ : ∃ row, c.live.get? id = some row := by
    rcases List.mem_append.mp hid with hcell | hwire
    · obtain ⟨cell, hmem, rfl⟩ := List.mem_map.mp hcell
      exact ⟨_, cell?_eq_some_iff.mp ((mem_cells_iff h.keyed).mp hmem)⟩
    · obtain ⟨wire, hmem, rfl⟩ := List.mem_map.mp hwire
      obtain ⟨id, hwire⟩ := mem_wires_iff_exists.mp hmem
      have hget := wire?_eq_some_iff.mp hwire
      exact ⟨.wire wire, by rw [← hget]; exact congrArg c.live.get? (h.keyed hget)⟩
  have hlook : c.row id = .ok row := by rw [Circuit.row, hrow]
  exact check_of_agree hlook (h.agree hrow)

/-! ## What it takes to have no defect -/

section Defects

variable {cell : Cell}

theorem parentDefect?_eq_none_iff :
    c.parentDefect? cell = none ↔ (cell.parent = none ↔ cell.id = .root) ∧
      ∀ parent, cell.parent = some parent →
        ∃ above, c.cell parent = .ok above ∧ cell.id ∈ above.children := by
  rw [parentDefect?]
  cases hup : cell.parent with
  | none => by_cases hroot : cell.id = .root <;> simp [CellId.isRoot, hroot]
  | some parent =>
    by_cases hroot : cell.id = .root
    · simp [CellId.isRoot, hroot]
    · cases hlook : c.cell parent <;> simp [CellId.isRoot, hroot, hlook]

theorem childDefect?_eq_none_iff {child : CellId} :
    c.childDefect? cell child = none ↔
      ∃ below, c.cell child = .ok below ∧ below.parent = some cell.id := by
  rw [childDefect?]
  cases c.cell child <;> simp

theorem inputDefect?_eq_none_iff {input : WireId} :
    c.inputDefect? cell input = none ↔ ∃ wire, c.wire input = .ok wire ∧ wire.target = cell.id := by
  rw [inputDefect?]
  cases c.wire input <;> simp

theorem outputDefect?_eq_none_iff {output : WireId} :
    c.outputDefect? cell output = none ↔ ∃ wire, c.wire output = .ok wire ∧ wire.source = cell.id := by
  rw [outputDefect?]
  cases c.wire output <;> simp

theorem ascentDefect?_eq_none_iff :
    c.ascentDefect? cell = none ↔ c.reachesRoot c.size cell.id = true := by
  rw [ascentDefect?]
  split <;> simp_all

theorem wireDefect?_eq_none_iff {wire : Wire} :
    c.wireDefect? wire = none ↔
      (∃ source, c.cell wire.source = .ok source ∧ wire.id ∈ source.outputs) ∧
      ∃ target, c.cell wire.target = .ok target ∧ wire.id ∈ target.inputs := by
  rw [wireDefect?, Option.orElse_eq_orElse, Option.orElse_eq_or, Option.or_eq_none_iff, sourceDefect?,
    targetDefect?]
  cases c.cell wire.source <;> cases c.cell wire.target <;> simp

end Defects

namespace Checked

/-! ## No link leads nowhere -/

theorem parent_live (h : c.Checked) {id parent : CellId} {cell : Cell}
    (hcell : c.cell? id = some cell) (hup : cell.parent = some parent) :
    ∃ above, c.cell? parent = some above := by
  have hparent := (cellDefect?_eq_none_iff.mp (h.cell_agrees hcell)).1
  obtain ⟨above, habove, -⟩ := (parentDefect?_eq_none_iff.mp hparent).2 parent hup
  exact ⟨above, cell_ok_iff.mp habove⟩

/-- What a cell lists as a child is a cell, and that cell takes it for its parent. -/
theorem child_live (h : c.Checked) {id child : CellId} {cell : Cell} (hcell : c.cell? id = some cell)
    (hchild : child ∈ cell.children) : ∃ below, c.cell? child = some below ∧ below.parent = some id := by
  have hnone := (cellDefect?_eq_none_iff.mp (h.cell_agrees hcell)).2.1 child hchild
  obtain ⟨below, hbelow, hup⟩ := childDefect?_eq_none_iff.mp hnone
  rw [id_of_cell? h.keyed hcell] at hup
  exact ⟨below, cell_ok_iff.mp hbelow, hup⟩

theorem input_live (h : c.Checked) {id : CellId} {input : WireId} {cell : Cell}
    (hcell : c.cell? id = some cell) (hinput : input ∈ cell.inputs) :
    ∃ wire, c.wire? input = some wire := by
  have hnone := (cellDefect?_eq_none_iff.mp (h.cell_agrees hcell)).2.2.1 input hinput
  obtain ⟨wire, hwire, -⟩ := inputDefect?_eq_none_iff.mp hnone
  exact ⟨wire, wire_ok_iff.mp hwire⟩

theorem source_live (h : c.Checked) {id : WireId} {wire : Wire} (hwire : c.wire? id = some wire) :
    ∃ source, c.cell? wire.source = some source := by
  have hnone : c.wireDefect? wire = none := h.agree (wire?_eq_some_iff.mp hwire)
  obtain ⟨source, hsource, -⟩ := (wireDefect?_eq_none_iff.mp hnone).1
  exact ⟨source, cell_ok_iff.mp hsource⟩

/-! ## Upwards -/

/-- A climb that may pass a cell more than the way has steps comes to an end. -/
theorem climbToLit_ok (h : c.Checked) (origin : CellId) {steps fuel : Nat} (hlt : steps < fuel)
    {id : CellId} {cell : Cell} (hcell : c.cell? id = some cell)
    (hreaches : c.reachesRoot steps id = true) :
    ∃ found, c.climbToLit origin fuel (some id) = .ok found := by
  induction fuel generalizing id cell steps with
  | zero => omega
  | succ fuel ih =>
    rw [climbToLit, cell_ok_iff.mpr hcell]
    simp only [bind, Except.bind]
    by_cases hlit : cell.fire.isLit = true
    · exact ⟨true, if_pos hlit⟩
    · rw [if_neg hlit]
      rcases h.rooted.ascent_cases hcell hreaches with ⟨hend, -⟩ | ⟨rest, parent, rfl, hup, hrest, -⟩
      · exact ⟨false, by rw [hend, climbToLit]⟩
      · obtain ⟨above, habove⟩ := h.parent_live hcell hup
        rw [hup]
        exact ih (by omega) habove hrest

theorem litAbove_ok (h : c.Checked) {id : CellId} {cell : Cell} (hcell : c.cell? id = some cell) :
    ∃ found, c.litAbove id = .ok found := by
  rw [litAbove, cell_ok_iff.mpr hcell]
  simp only [bind, Except.bind]
  rcases h.rooted.ascent_cases hcell (h.rooted.reaches hcell) with ⟨hend, -⟩ |
    ⟨rest, parent, hsize, hup, hrest, -⟩
  · exact ⟨false, by rw [hend, climbToLit]⟩
  · obtain ⟨above, habove⟩ := h.parent_live hcell hup
    rw [hup]
    exact h.climbToLit_ok id (by omega) habove hrest

theorem sheltered_ok (h : c.Checked) : ∃ kept, c.sheltered = .ok kept := by
  have hsearch : ∀ cell ∈ c.cells, ∃ found,
      (if cell.fire.isLit then c.litAbove cell.id else .ok false) = .ok found := by
    intro cell hcell
    split
    · exact h.litAbove_ok ((mem_cells_iff h.keyed).mp hcell)
    · exact ⟨false, rfl⟩
  obtain ⟨cells, hcells⟩ := filterM_ok hsearch
  exact ⟨cells.map (·.id), by rw [sheltered, hcells]; rfl⟩

end Checked

/-! ## Projection -/

section MapCells

variable {change : Cell → Cell}

theorem cell_mapCells (c : Circuit) (change : Cell → Cell) (id : CellId) :
    (c.mapCells change).cell id = (c.cell id).map change := by
  unfold cell
  rw [mapCells, Table.get?_map]
  rcases c.live.get? id with - | (cell | wire) <;> rfl

theorem wire_mapCells (c : Circuit) (change : Cell → Cell) (id : WireId) :
    (c.mapCells change).wire id = c.wire id := by
  unfold wire
  rw [mapCells, Table.get?_map]
  rcases c.live.get? id with - | (cell | wire) <;> rfl

theorem size_mapCells (c : Circuit) (change : Cell → Cell) : (c.mapCells change).size = c.size := by
  simp [mapCells, size, Table.size, Table.map]

/-- Defects are a matter of links alone. -/
theorem cellDefect?_mapCells (hsame : ∀ cell, Cell.SameLinks (change cell) cell) (cell : Cell) :
    (c.mapCells change).cellDefect? (change cell) = c.cellDefect? cell := by
  have hparent : (c.mapCells change).parentDefect? (change cell) = c.parentDefect? cell := by
    rw [parentDefect?, parentDefect?, (hsame cell).parent, (hsame cell).id]
    cases cell.parent with
    | none => rfl
    | some parent =>
      simp only [cell_mapCells]
      cases c.cell parent with
      | error fault => rfl
      | ok above => simp only [Except.map, (hsame above).children]
  have hchild : (c.mapCells change).childDefect? (change cell) = c.childDefect? cell := by
    funext child
    rw [childDefect?, childDefect?, cell_mapCells, (hsame cell).id]
    cases c.cell child with
    | error fault => rfl
    | ok below => simp only [Except.map, (hsame below).parent]
  have hinput : (c.mapCells change).inputDefect? (change cell) = c.inputDefect? cell := by
    funext input
    rw [inputDefect?, inputDefect?, wire_mapCells, (hsame cell).id]
  have houtput : (c.mapCells change).outputDefect? (change cell) = c.outputDefect? cell := by
    funext output
    rw [outputDefect?, outputDefect?, wire_mapCells, (hsame cell).id]
  have hup : (c.mapCells change).parentOf = c.parentOf :=
    ofCells_mapCells fun cell => (hsame cell).parent
  have hascent : (c.mapCells change).ascentDefect? (change cell) = c.ascentDefect? cell := by
    rw [ascentDefect?, ascentDefect?, (hsame cell).id, size_mapCells, reachesRoot_eq_of_parentOf hup]
  rw [cellDefect?, cellDefect?, hparent, hchild, hinput, houtput, hascent, (hsame cell).children,
    (hsame cell).inputs, (hsame cell).outputs]

theorem wireDefect?_mapCells (hsame : ∀ cell, Cell.SameLinks (change cell) cell) (wire : Wire) :
    (c.mapCells change).wireDefect? wire = c.wireDefect? wire := by
  have hsource : (c.mapCells change).sourceDefect? wire = c.sourceDefect? wire := by
    rw [sourceDefect?, sourceDefect?, cell_mapCells]
    cases c.cell wire.source with
    | error fault => rfl
    | ok source => simp only [Except.map, (hsame source).outputs]
  have htarget : (c.mapCells change).targetDefect? wire = c.targetDefect? wire := by
    rw [targetDefect?, targetDefect?, cell_mapCells]
    cases c.cell wire.target with
    | error fault => rfl
    | ok target => simp only [Except.map, (hsame target).inputs]
  rw [wireDefect?, wireDefect?, hsource, htarget]

theorem Checked.mapCells (h : c.Checked) (hsame : ∀ cell, Cell.SameLinks (change cell) cell) :
    (c.mapCells change).Checked where
  keyed := h.keyed.mapCells fun cell => (hsame cell).id
  agree := by
    intro id row hrow
    rw [Circuit.mapCells, Table.get?_map] at hrow
    obtain ⟨old, hold, rfl⟩ := Option.map_eq_some_iff.mp hrow
    have hagree := h.agree hold
    rcases old with cell | wire
    · exact (cellDefect?_mapCells hsame cell).trans hagree
    · exact (wireDefect?_mapCells hsame wire).trans hagree

end MapCells

namespace Checked

/-- Projection changes pulses only. -/
theorem keepPulses (h : c.Checked) (kept : List CellId) : (c.keepPulses kept).Checked := by
  rw [keepPulses_eq_mapCells]
  refine h.mapCells fun cell => ?_
  split <;> exact ⟨rfl, rfl, rfl, rfl, rfl⟩

/-- A checked circuit can be projected, with or without a check of the outcome. -/
theorem project_ok (h : c.Checked) (validate : Bool) : ∃ d, c.project validate = .ok d := by
  obtain ⟨kept, hkept⟩ := h.sheltered_ok
  refine ⟨c.keepPulses kept, ?_⟩
  rw [project, hkept]
  show (if validate then (c.keepPulses kept).checkAll >>= fun _ => .ok (c.keepPulses kept)
    else .ok (c.keepPulses kept) : Except Fault Circuit) = .ok (c.keepPulses kept)
  rw [(h.keepPulses kept).checkAll_ok]
  split <;> rfl

theorem of_project (h : c.Checked) {validate : Bool} (hproject : c.project validate = .ok d) :
    d.Checked := by
  obtain ⟨kept, -, rfl⟩ := Circuit.project_ok hproject
  exact h.keepPulses kept

end Checked

/-! ## Downwards -/

/-- The number of children that all cells list together. -/
def links (c : Circuit) : Nat := c.cells.foldl (fun links cell => links + cell.children.length) 0

theorem length_children_le (c : Circuit) {cell : Cell} (hcell : cell ∈ c.cells) :
    cell.children.length ≤ c.links := by
  have hsum : ∀ (cells : List Cell) (start : Nat),
      cells.foldl (fun links cell => links + cell.children.length) start =
        start + (cells.map fun cell => cell.children.length).sum := by
    intro cells
    induction cells with
    | nil => simp
    | cons head rest ih =>
      intro start
      rw [List.foldl_cons, ih, List.map_cons, List.sum_cons, Nat.add_assoc]
  rw [links, hsum, Nat.zero_add]
  exact List.single_le_sum (fun _ _ => Nat.zero_le _) _ (List.mem_map.mpr ⟨cell, hcell, rfl⟩)

/-- A walk opens a cell, lists what is below it, and goes on with its stack, all within some steps. -/
def Opens (c : Circuit) (origin : CellId) (steps : Nat) (visits : List Visit) : Prop :=
  ∃ used below, used ≤ steps ∧ ∀ fuel stack listed,
    c.walk origin (fuel + used) (visits ++ stack) listed = c.walk origin fuel stack (listed ++ below)

namespace Opens

variable {origin : CellId} {steps more : Nat}

theorem nil (origin : CellId) : c.Opens origin 0 [] :=
  ⟨0, [], Nat.le_refl _, fun _ _ _ => by simp⟩

theorem append {visits others : List Visit} (h : c.Opens origin steps visits)
    (h' : c.Opens origin more others) : c.Opens origin (steps + more) (visits ++ others) := by
  obtain ⟨used, below, hused, hwalk⟩ := h
  obtain ⟨used', below', hused', hwalk'⟩ := h'
  refine ⟨used' + used, below ++ below', by omega, fun fuel stack listed => ?_⟩
  rw [← Nat.add_assoc, List.append_assoc, hwalk, hwalk', List.append_assoc]

theorem mono {visits : List Visit} (h : c.Opens origin steps visits) (hle : steps ≤ more) :
    c.Opens origin more visits := by
  obtain ⟨used, below, hused, hwalk⟩ := h
  exact ⟨used, below, by omega, hwalk⟩

theorem leave (origin id : CellId) : c.Opens origin 1 [.leave id] :=
  ⟨1, [id], Nat.le_refl _, fun _ _ _ => rfl⟩

/-- Some cells are opened one after the other. -/
theorem enterAll {ids : List CellId} (h : ∀ id ∈ ids, c.Opens origin steps [.enter id]) :
    c.Opens origin (ids.length * steps) (ids.map .enter) := by
  induction ids with
  | nil => exact (nil origin).mono (Nat.zero_le _)
  | cons id ids ih =>
    have hrest := ih fun other hother => h other (List.mem_cons_of_mem _ hother)
    refine ((h id List.mem_cons_self).append hrest).mono ?_
    rw [List.length_cons, Nat.succ_mul]
    omega

/-- Opening a cell takes a step, and then the cells it lists and the cell itself are dealt with. -/
theorem enter {id : CellId} {cell : Cell} (hcell : c.cell? id = some cell)
    (h : c.Opens origin steps (cell.children.map .enter)) : c.Opens origin (steps + 2) [.enter id] := by
  obtain ⟨used, below, hused, hwalk⟩ := h.append (leave origin id)
  refine ⟨used + 1, below, by omega, fun fuel stack listed => ?_⟩
  have hopened : c.walk origin (fuel + used + 1) (.enter id :: stack) listed =
      c.walk origin (fuel + used) (cell.children.map .enter ++ .leave id :: stack) listed := by
    rw [walk, cell_ok_iff.mpr hcell]
    rfl
  calc c.walk origin (fuel + (used + 1)) (.enter id :: stack) listed
    _ = c.walk origin (fuel + used) (cell.children.map .enter ++ .leave id :: stack) listed := hopened
    _ = c.walk origin (fuel + used) (cell.children.map .enter ++ [.leave id] ++ stack) listed := by
      rw [List.append_assoc]
      rfl
    _ = c.walk origin fuel stack (listed ++ below) := hwalk fuel stack listed

end Opens

namespace Checked

/-- A child that reaches the root in some steps has a parent that does in one less. -/
theorem reachesRoot_of_child (h : c.Checked) {id child : CellId} {cell : Cell}
    (hcell : c.cell? id = some cell) (hchild : child ∈ cell.children) {steps : Nat}
    (hreaches : c.reachesRoot steps child = true) :
    ∃ rest, steps = rest + 1 ∧ c.reachesRoot rest id = true := by
  obtain ⟨below, hbelow, hup⟩ := h.child_live hcell hchild
  rcases h.rooted.ascent_cases hbelow hreaches with ⟨hend, -⟩ | ⟨rest, parent, rfl, hparent, hrest, -⟩
  · rw [hend] at hup
    cases hup
  · rw [hup, Option.some.injEq] at hparent
    exact ⟨rest, rfl, hparent ▸ hrest⟩

/-- Where the way up is long, little is below: a cell that takes at least `size - height` steps to the root
has at most `height` generations below it. -/
theorem opens (h : c.Checked) (origin : CellId) {height : Nat} {id : CellId} {cell : Cell}
    (hcell : c.cell? id = some cell)
    (hfar : ∀ steps, c.reachesRoot steps id = true → c.size ≤ steps + height) :
    c.Opens origin (2 * (c.links + 1) ^ height) [.enter id] := by
  induction height generalizing id cell with
  | zero =>
    -- a child would be further from the root than there are rows
    have hnone : cell.children = [] := by
      rw [List.eq_nil_iff_forall_not_mem]
      intro child hchild
      obtain ⟨below, hbelow, -⟩ := h.child_live hcell hchild
      obtain ⟨rest, hsize, hrest⟩ := h.reachesRoot_of_child hcell hchild (h.rooted.reaches hbelow)
      have hle := hfar rest hrest
      omega
    have hchildren : c.Opens origin 0 (cell.children.map .enter) := by
      rw [hnone]
      exact Opens.nil origin
    exact (Opens.enter hcell hchildren).mono (by simp)
  | succ height ih =>
    have hchildren : ∀ child ∈ cell.children,
        c.Opens origin (2 * (c.links + 1) ^ height) [.enter child] := by
      intro child hchild
      obtain ⟨below, hbelow, -⟩ := h.child_live hcell hchild
      refine ih hbelow fun steps hsteps => ?_
      obtain ⟨rest, rfl, hrest⟩ := h.reachesRoot_of_child hcell hchild hsteps
      have hle := hfar rest hrest
      omega
    have hmem := (mem_cells_iff h.keyed).mpr ((id_of_cell? h.keyed hcell).symm ▸ hcell)
    have hpos : 1 ≤ (c.links + 1) ^ height := Nat.one_le_pow _ _ (Nat.succ_pos _)
    refine (Opens.enter hcell (Opens.enterAll hchildren)).mono ?_
    calc cell.children.length * (2 * (c.links + 1) ^ height) + 2
      _ ≤ c.links * (2 * (c.links + 1) ^ height) + 2 * (c.links + 1) ^ height :=
        Nat.add_le_add (Nat.mul_le_mul_right _ (c.length_children_le hmem)) (by omega)
      _ = 2 * (c.links + 1) ^ (height + 1) := by ring

/-- The walk down from a live cell lists what it finds, and comes to its end. -/
theorem subtree_ok (h : c.Checked) {id : CellId} {cell : Cell} (hcell : c.cell? id = some cell) :
    ∃ below, c.subtree id = .ok below := by
  have hopens : c.Opens id (2 * (c.links + 1) ^ c.size) [.enter id] :=
    h.opens id hcell fun steps _ => Nat.le_add_left ..
  obtain ⟨used, below, hused, hwalk⟩ := hopens
  have hbound : used ≤ c.walkBound :=
    calc used
      _ ≤ 2 * (c.links + 1) ^ c.size := hused
      _ ≤ 2 * (c.links + 1) ^ (c.size + 1) :=
        Nat.mul_le_mul_left 2 (Nat.pow_le_pow_right (Nat.succ_pos _) (Nat.le_succ _))
  refine ⟨below, ?_⟩
  have hend := hwalk (c.walkBound - used) [] []
  rw [Nat.sub_add_cancel hbound] at hend
  rw [subtree]
  refine hend.trans ?_
  cases c.walkBound - used <;> rfl

end Checked

end Circuit

end PulseCircuit
