import PulseCircuit.Circuit.Projection
import PulseCircuit.Proofs.Collecting
import PulseCircuit.Proofs.Links

/-!
# Lit cells on the way to the root

From each cell a way leads up to the root. Projection keeps a pulse only if some cell further up is lit,
so on each way it puts out the topmost lit cell and no other (`Rooted.countLit_ascent_keepPulses`). The number of
lit cells on the darkest way therefore bounds how often a circuit can be projected before it is dark.

* `Circuit.Checked`: what the check of all rows establishes;
* `Circuit.Rooted`: what a checked circuit promises about the ways up;
* `Circuit.litDepth`: the largest number of lit cells on one way up;
* `Rooted.litDepth_project`: projection lowers it by one;
* `Rooted.project_eq_self`: a dark circuit is projected to itself.
-/

namespace PulseCircuit

theorem Fire.eq_none_of_dim {fire : Fire} (h : fire.isLit = false) : fire = .none := by
  obtain ⟨red, green, blue⟩ := fire
  cases red <;> cases green <;> cases blue <;> simp_all [Fire.isLit, Fire.none]

namespace Circuit

/-! ## Ways up -/

/-- The cells on the way up from a cell, itself first, in at most the given number of steps. -/
def ascent (c : Circuit) : Nat → CellId → List Cell
  | 0, id => (c.cell? id).toList
  | fuel + 1, id =>
    match c.cell? id with
    | none => []
    | some cell =>
      cell ::
        match cell.parent with
        | none => []
        | some parent => c.ascent fuel parent

/-- How many of some cells hold a pulse. -/
def countLit (cells : List Cell) : Nat := cells.countP (·.fire.isLit)

/-- The largest number of cells on one way up that hold a pulse. -/
def litDepth (c : Circuit) : Nat :=
  (c.cells.map fun cell => countLit (c.ascent c.size cell.id)).foldr max 0

/-- Rows lie under their own ids, every cell reaches the root in fewer steps than there are rows, and the
root has no parent. -/
structure Rooted (c : Circuit) : Prop where
  keyed : c.Keyed
  reaches : ∀ {id cell}, c.cell? id = some cell → c.reachesRoot c.size id = true
  top : ∀ {cell}, c.cell? .root = some cell → cell.parent = none

theorem id_of_cell? {c : Circuit} (h : c.Keyed) {id : CellId} {cell : Cell}
    (hcell : c.cell? id = some cell) : cell.id = id :=
  CellId.toId_inj.mp (h (cell?_eq_some_iff.mp hcell))

theorem mem_cells_iff {c : Circuit} (h : c.Keyed) {cell : Cell} :
    cell ∈ c.cells ↔ c.cell? cell.id = some cell := by
  rw [mem_cells_iff_exists]
  constructor
  · rintro ⟨id, hcell⟩
    rwa [id_of_cell? h hcell]
  · exact fun hcell => ⟨cell.id, hcell⟩

theorem check_of_defect {c : Circuit} {id : Id} {row : Row} {defect : Defect}
    (hrow : c.row id = .ok row) (hdefect : c.rowDefect? row = some defect) :
    c.check id = .error (.invalid id defect) := by
  rw [check, hrow]
  simp only [bind, Except.bind, hdefect]

theorem check_of_agree {c : Circuit} {id : Id} {row : Row} (hrow : c.row id = .ok row)
    (hagree : c.rowDefect? row = none) : c.check id = .ok () := by
  rw [check, hrow]
  simp only [bind, Except.bind, hagree]

/-- A cell is in order if none of the questions about it turns up a defect. -/
theorem cellDefect?_eq_none_iff {c : Circuit} {cell : Cell} :
    c.cellDefect? cell = none ↔ c.parentDefect? cell = none ∧
      (∀ child ∈ cell.children, c.childDefect? cell child = none) ∧
      (∀ input ∈ cell.inputs, c.inputDefect? cell input = none) ∧
      (∀ output ∈ cell.outputs, c.outputDefect? cell output = none) ∧
      c.ascentDefect? cell = none := by
  simp only [cellDefect?, Option.orElse_eq_orElse, Option.orElse_eq_or, Option.or_eq_none_iff,
    List.findSome?_eq_none_iff]

/-- Rows lie under their own ids, and no row has a defect. -/
structure Checked (c : Circuit) : Prop where
  keyed : c.Keyed
  agree : ∀ {id row}, c.live.get? id = some row → c.rowDefect? row = none

/-- Where rows lie under their own ids, the check of all of them leaves no row out. -/
theorem checked_of_checkAll {c : Circuit} (hkeyed : c.Keyed) (hcheck : c.checkAll = .ok ()) :
    c.Checked where
  keyed := hkeyed
  agree := by
    intro id row hrow
    have hlisted : row.id ∈ c.cells.map (·.id.toId) ++ c.wires.map (·.id.toId) := by
      rcases row with cell | wire
      · have hmem := mem_cells_iff_exists.mpr ⟨⟨id.raw⟩, cell?_eq_some_iff.mpr hrow⟩
        exact List.mem_append_left _ (List.mem_map.mpr ⟨cell, hmem, rfl⟩)
      · have hmem := mem_wires_iff_exists.mpr ⟨⟨id.raw⟩, wire?_eq_some_iff.mpr hrow⟩
        exact List.mem_append_right _ (List.mem_map.mpr ⟨wire, hmem, rfl⟩)
    have hok := forM_members hcheck row.id hlisted
    have hlook : c.row row.id = .ok row := by rw [Circuit.row, hkeyed hrow, hrow]
    cases hdefect : c.rowDefect? row with
    | none => rfl
    | some defect =>
      rw [check_of_defect hlook hdefect] at hok
      cases hok

theorem Checked.cell_agrees {c : Circuit} (h : c.Checked) {id : CellId} {cell : Cell}
    (hcell : c.cell? id = some cell) : c.cellDefect? cell = none :=
  h.agree (cell?_eq_some_iff.mp hcell)

theorem Checked.rooted {c : Circuit} (h : c.Checked) : c.Rooted where
  keyed := h.keyed
  reaches := by
    intro id cell hcell
    have hascent := (cellDefect?_eq_none_iff.mp (h.cell_agrees hcell)).2.2.2.2
    rw [ascentDefect?, id_of_cell? h.keyed hcell] at hascent
    by_contra hnot
    rw [if_neg hnot] at hascent
    cases hascent
  top := by
    intro cell hcell
    have hparent := (cellDefect?_eq_none_iff.mp (h.cell_agrees hcell)).1
    rw [parentDefect?, id_of_cell? h.keyed hcell] at hparent
    cases hup : cell.parent with
    | none => rfl
    | some parent =>
      rw [hup] at hparent
      cases hparent

/-- A circuit that passes its check is rooted. -/
theorem rooted_of_checkAll {c : Circuit} (hkeyed : c.Keyed) (hcheck : c.checkAll = .ok ()) :
    c.Rooted :=
  (checked_of_checkAll hkeyed hcheck).rooted

/-- On its way to the root a cell is either at the end or has a parent one step up. -/
theorem Rooted.ascent_cases {c : Circuit} (h : c.Rooted) {fuel : Nat} {id : CellId} {cell : Cell}
    (hcell : c.cell? id = some cell) (hreaches : c.reachesRoot fuel id = true) :
    (cell.parent = none ∧ c.ascent fuel id = [cell]) ∨
    ∃ rest parent, fuel = rest + 1 ∧ cell.parent = some parent ∧
      c.reachesRoot rest parent = true ∧ c.ascent fuel id = cell :: c.ascent rest parent := by
  by_cases hroot : id = .root
  · have hparent := h.top (hroot ▸ hcell)
    refine Or.inl ⟨hparent, ?_⟩
    cases fuel <;> simp [ascent, hcell, hparent]
  · have hnot : id.isRoot = false := by simpa [CellId.isRoot] using hroot
    cases fuel with
    | zero => simp [reachesRoot, hnot] at hreaches
    | succ rest =>
      rw [reachesRoot, hnot, Bool.false_or, cell_ok_iff.mpr hcell] at hreaches
      obtain ⟨_, parent, _, _, _, _, _, _, _⟩ := cell
      cases parent with
      | none => cases hreaches
      | some parent => exact Or.inr ⟨rest, parent, rfl, rfl, hreaches, by simp [ascent, hcell]⟩

theorem countLit_cons (cell : Cell) (cells : List Cell) :
    countLit (cell :: cells) = countLit cells + if cell.fire.isLit then 1 else 0 := by
  rw [countLit, countLit, List.countP_cons]

/-- A climb that ends finds a pulse exactly if there is a lit cell on the way. -/
theorem Rooted.climbToLit_iff {c : Circuit} (h : c.Rooted) {origin id : CellId} {fuel steps : Nat}
    {found : Bool} (hclimb : c.climbToLit origin fuel (some id) = .ok found)
    (hreaches : c.reachesRoot steps id = true) :
    found = true ↔ 0 < countLit (c.ascent steps id) := by
  induction fuel generalizing id steps with
  | zero =>
    cases hcell : c.cell id with
    | error fault =>
      simp only [climbToLit, hcell, bind, Except.bind] at hclimb
      cases hclimb
    | ok cell =>
      simp only [climbToLit, hcell, bind, Except.bind] at hclimb
      cases hlit : cell.fire.isLit with
      | false => simp [hlit] at hclimb
      | true =>
        simp only [hlit, if_true] at hclimb
        cases hclimb
        rcases h.ascent_cases (cell_ok_iff.mp hcell) hreaches with ⟨-, hway⟩ |
          ⟨rest, parent, -, -, -, hway⟩ <;> simp [hway, countLit_cons, hlit]
  | succ fuel ih =>
    -- the climb stops at the first lit cell, and goes on with the way of the parent from a dark one
    cases hcell : c.cell id with
    | error fault =>
      simp only [climbToLit, hcell, bind, Except.bind] at hclimb
      cases hclimb
    | ok cell =>
      simp only [climbToLit, hcell, bind, Except.bind] at hclimb
      cases hlit : cell.fire.isLit with
      | true =>
        simp only [hlit, if_true] at hclimb
        cases hclimb
        rcases h.ascent_cases (cell_ok_iff.mp hcell) hreaches with ⟨-, hway⟩ |
          ⟨rest, parent, -, -, -, hway⟩ <;> simp [hway, countLit_cons, hlit]
      | false =>
        simp only [hlit, Bool.false_eq_true, if_false] at hclimb
        rcases h.ascent_cases (cell_ok_iff.mp hcell) hreaches with ⟨hup, hway⟩ |
          ⟨rest, parent, -, hup, hrest, hway⟩
        · rw [hup, climbToLit] at hclimb
          cases hclimb
          simp [hway, countLit, hlit]
        · rw [hup] at hclimb
          rw [ih hclimb hrest, hway, countLit_cons, hlit]
          simp

/-! ## Projection -/

theorem keepPulses_eq_mapCells (c : Circuit) (kept : List CellId) :
    c.keepPulses kept = c.mapCells fun cell =>
      if kept.contains cell.id then cell else { cell with fire := .none } := rfl

theorem parentOf_keepPulses (c : Circuit) (kept : List CellId) :
    (c.keepPulses kept).parentOf = c.parentOf := by
  rw [keepPulses_eq_mapCells]
  refine ofCells_mapCells fun cell => ?_
  split <;> rfl

theorem size_keepPulses (c : Circuit) (kept : List CellId) : (c.keepPulses kept).size = c.size := by
  simp [keepPulses, size, Table.size, Table.map]

theorem reachesRoot_succ (c : Circuit) (fuel : Nat) (id : CellId) :
    c.reachesRoot (fuel + 1) id = (id.isRoot || (c.parentOf id).any (c.reachesRoot fuel)) := by
  rw [reachesRoot, parentOf, ofCells]
  cases hcell : c.cell id with
  | error fault =>
    rw [cell?_of_error hcell]
    rfl
  | ok cell =>
    rw [cell_ok_iff.mp hcell]
    obtain ⟨_, parent, _, _, _, _, _, _, _⟩ := cell
    cases parent <;> rfl

theorem reachesRoot_eq_of_parentOf {c d : Circuit} (h : d.parentOf = c.parentOf) (fuel : Nat)
    (id : CellId) : d.reachesRoot fuel id = c.reachesRoot fuel id := by
  induction fuel generalizing id with
  | zero => rfl
  | succ fuel ih =>
    rw [reachesRoot_succ, reachesRoot_succ, h]
    cases c.parentOf id with
    | none => rfl
    | some parent => simp [ih parent]

theorem Keyed.keepPulses {c : Circuit} (h : c.Keyed) (kept : List CellId) :
    (c.keepPulses kept).Keyed := by
  rw [keepPulses_eq_mapCells]
  refine h.mapCells fun cell => ?_
  split <;> rfl

theorem Rooted.keepPulses {c : Circuit} (h : c.Rooted) (kept : List CellId) :
    (c.keepPulses kept).Rooted where
  keyed := h.keyed.keepPulses kept
  reaches := by
    intro id cell hcell
    rw [keepPulses_eq_mapCells, cell?_mapCells] at hcell
    obtain ⟨old, hold, -⟩ := Option.map_eq_some_iff.mp hcell
    rw [reachesRoot_eq_of_parentOf (parentOf_keepPulses c kept), size_keepPulses]
    exact h.reaches hold
  top := by
    intro cell hcell
    rw [keepPulses_eq_mapCells, cell?_mapCells] at hcell
    obtain ⟨old, hold, rfl⟩ := Option.map_eq_some_iff.mp hcell
    have htop := h.top hold
    split <;> exact htop

theorem project_ok {c d : Circuit} {validate : Bool} (h : c.project validate = .ok d) :
    ∃ kept, c.sheltered = .ok kept ∧ d = c.keepPulses kept := by
  rw [project] at h
  cases hkept : c.sheltered with
  | error fault =>
    rw [hkept] at h
    cases h
  | ok kept =>
    rw [hkept] at h
    refine ⟨kept, rfl, ?_⟩
    change (if validate then (c.keepPulses kept).checkAll >>= fun _ => .ok (c.keepPulses kept)
      else .ok (c.keepPulses kept) : Except Fault Circuit) = .ok d at h
    split at h
    · cases hcheck : (c.keepPulses kept).checkAll with
      | error fault =>
        rw [hcheck] at h
        cases h
      | ok u =>
        rw [hcheck] at h
        cases h
        rfl
    · cases h
      rfl

/-- The search above a lit cell succeeds, and the cell is sheltered exactly if it finds a pulse. -/
theorem mem_sheltered_iff {c : Circuit} (h : c.Keyed) {kept : List CellId}
    (hkept : c.sheltered = .ok kept) {id : CellId} {cell : Cell} (hcell : c.cell? id = some cell)
    (hlit : cell.fire.isLit = true) :
    ∃ found, c.climbToLit id c.size cell.parent = .ok found ∧ (id ∈ kept ↔ found = true) := by
  rw [sheltered] at hkept
  cases hcells : c.cells.filterM fun cell =>
      if cell.fire.isLit then c.litAbove cell.id else .ok false with
  | error fault =>
    rw [hcells] at hkept
    cases hkept
  | ok cells =>
    rw [hcells] at hkept
    cases hkept
    obtain ⟨hall, hmem⟩ := filterM_members hcells
    have hid := id_of_cell? h hcell
    have hlive : cell ∈ c.cells := (mem_cells_iff h).mpr (hid ▸ hcell)
    obtain ⟨found, hfound⟩ := hall cell hlive
    refine ⟨found, ?_, ?_, ?_⟩
    · rw [if_pos hlit, litAbove, hid, cell_ok_iff.mpr hcell] at hfound
      exact hfound
    · intro hin
      obtain ⟨other, hother, hsame⟩ := List.mem_map.mp hin
      obtain ⟨hotherlive, hok⟩ := (hmem other).mp hother
      have hcell' := (mem_cells_iff h).mp hotherlive
      rw [hsame, hcell] at hcell'
      cases hcell'
      rw [hfound] at hok
      cases hok
      rfl
    · rintro rfl
      exact List.mem_map.mpr ⟨cell, (hmem cell).mpr ⟨hlive, hfound⟩, hid⟩

theorem ascent_of_absent {c : Circuit} {fuel : Nat} {id : CellId} (h : c.cell? id = none) :
    c.ascent fuel id = [] := by
  cases fuel <;> simp [ascent, h]

/-- On each way to the root projection puts out the topmost lit cell and no other. -/
theorem Rooted.countLit_ascent_keepPulses {c : Circuit} (h : c.Rooted) {kept : List CellId}
    (hkept : c.sheltered = .ok kept) {fuel : Nat} {id : CellId}
    (hreaches : c.reachesRoot fuel id = true) :
    countLit ((c.keepPulses kept).ascent fuel id) = countLit (c.ascent fuel id) - 1 := by
  -- the ways are as long in both circuits, since projection changes no parent
  induction fuel using Nat.strongRecOn generalizing id with
  | ind fuel ih =>
  have hlook : (c.keepPulses kept).cell? id = (c.cell? id).map fun cell =>
      if kept.contains cell.id then cell else { cell with fire := .none } := by
    rw [keepPulses_eq_mapCells, cell?_mapCells]
  have hreaches' : (c.keepPulses kept).reachesRoot fuel id = true := by
    rw [reachesRoot_eq_of_parentOf (parentOf_keepPulses c kept), hreaches]
  cases hcell : c.cell? id with
  | none =>
    rw [hcell] at hlook
    rw [ascent_of_absent hcell, ascent_of_absent hlook]
    rfl
  | some cell =>
  rw [hcell, Option.map_some] at hlook
  have hid := id_of_cell? h.keyed hcell
  generalize hnew : (if kept.contains cell.id then cell else { cell with fire := .none }) = new
    at hlook
  have hup : new.parent = cell.parent := by
    rw [← hnew]
    split <;> rfl
  have hlit : new.fire.isLit = true ↔ cell.fire.isLit = true ∧ id ∈ kept := by
    rw [← hnew, hid]
    by_cases hin : id ∈ kept <;> simp [hin, Fire.isLit, Fire.none]
  rcases h.ascent_cases hcell hreaches with ⟨hend, hway⟩ | ⟨rest, parent, hfuel, hnext, hrest, hway⟩
  · rcases h.keepPulses kept |>.ascent_cases hlook hreaches' with ⟨-, hway'⟩ |
      ⟨_, _, -, hnext', -, -⟩
    · -- nothing is above the top, so a pulse there goes out
      have hdark : new.fire.isLit = false := by
        rw [Bool.eq_false_iff]
        intro hnewlit
        obtain ⟨hcelllit, hin⟩ := hlit.mp hnewlit
        obtain ⟨found, hclimb, hiff⟩ := mem_sheltered_iff h.keyed hkept hcell hcelllit
        rw [hend, climbToLit, hiff.mp hin] at hclimb
        cases hclimb
      rw [hway, hway', countLit_cons, countLit_cons, hdark]
      by_cases hcelllit : cell.fire.isLit = true <;> simp [countLit, hcelllit]
    · rw [hup, hend] at hnext'
      cases hnext'
  · rcases h.keepPulses kept |>.ascent_cases hlook hreaches' with ⟨hend', -⟩ |
      ⟨rest', parent', hfuel', hnext', -, hway'⟩
    · rw [hup, hnext] at hend'
      cases hend'
    · rw [hup, hnext] at hnext'
      cases hnext'
      obtain rfl : rest' = rest := by omega
      have hsame := ih rest' (by omega) hrest
      rw [hway, hway', countLit_cons, countLit_cons, hsame]
      by_cases hcelllit : cell.fire.isLit = true
      · -- a lit cell stays lit exactly if the rest of its way has one to put out
        obtain ⟨found, hclimb, hiff⟩ := mem_sheltered_iff h.keyed hkept hcell hcelllit
        rw [hnext] at hclimb
        have habove := h.climbToLit_iff hclimb hrest
        by_cases hin : id ∈ kept
        · have hpos := habove.mp (hiff.mp hin)
          rw [if_pos hcelllit, if_pos (hlit.mpr ⟨hcelllit, hin⟩)]
          omega
        · have hzero : ¬ 0 < countLit (c.ascent rest' parent) := fun hpos =>
            hin (hiff.mpr (habove.mpr hpos))
          have hnot : ¬ new.fire.isLit = true := fun hnewlit => hin (hlit.mp hnewlit).2
          rw [if_pos hcelllit, if_neg hnot]
          omega
      · have hnot : ¬ new.fire.isLit = true := fun hnewlit => hcelllit (hlit.mp hnewlit).1
        rw [if_neg hcelllit, if_neg hnot]
        omega

/-! ## Lit depth -/

theorem litDepth_le_iff {c : Circuit} {bound : Nat} :
    c.litDepth ≤ bound ↔ ∀ cell ∈ c.cells, countLit (c.ascent c.size cell.id) ≤ bound := by
  rw [litDepth]
  induction c.cells with
  | nil => simp
  | cons cell cells ih =>
    rw [List.map_cons, List.foldr_cons, Nat.max_le, ih]
    simp

theorem Keyed.litDepth_le_iff {c : Circuit} (h : c.Keyed) {bound : Nat} :
    c.litDepth ≤ bound ↔
      ∀ id cell, c.cell? id = some cell → countLit (c.ascent c.size id) ≤ bound := by
  rw [Circuit.litDepth_le_iff]
  constructor
  · intro hall id cell hcell
    have hle := hall cell (mem_cells_iff_exists.mpr ⟨id, hcell⟩)
    rwa [id_of_cell? h hcell] at hle
  · intro hall cell hmem
    exact hall cell.id cell ((mem_cells_iff h).mp hmem)

theorem length_ascent_le (c : Circuit) (fuel : Nat) (id : CellId) :
    (c.ascent fuel id).length ≤ fuel + 1 := by
  induction fuel generalizing id with
  | zero =>
    rw [ascent]
    cases c.cell? id <;> simp
  | succ fuel ih =>
    rw [ascent]
    cases c.cell? id with
    | none => simp
    | some cell =>
      cases hup : cell.parent with
      | none => simp [hup]
      | some parent =>
        have hle := ih parent
        simp only [hup, List.length_cons]
        omega

theorem litDepth_le_size (c : Circuit) : c.litDepth ≤ c.size + 1 := by
  rw [litDepth_le_iff]
  intro cell _
  exact Nat.le_trans List.countP_le_length (c.length_ascent_le c.size cell.id)

/-- Projection takes one lit cell off each way up that has one. -/
theorem Rooted.litDepth_project {c d : Circuit} (h : c.Rooted) {validate : Bool}
    (hproject : c.project validate = .ok d) : d.litDepth = c.litDepth - 1 := by
  obtain ⟨kept, hkept, rfl⟩ := project_ok hproject
  have hbound : ∀ bound, (c.keepPulses kept).litDepth ≤ bound ↔ c.litDepth ≤ bound + 1 := by
    intro bound
    rw [(h.keepPulses kept).keyed.litDepth_le_iff, h.keyed.litDepth_le_iff]
    constructor
    · intro hall id cell hcell
      have hlook := congrArg (Option.map fun cell =>
        if kept.contains cell.id then cell else { cell with fire := .none }) hcell
      rw [← cell?_mapCells, ← keepPulses_eq_mapCells] at hlook
      have hle := hall id _ hlook
      rw [size_keepPulses, h.countLit_ascent_keepPulses hkept (h.reaches hcell)] at hle
      omega
    · intro hall id cell hcell
      rw [keepPulses_eq_mapCells, cell?_mapCells] at hcell
      obtain ⟨old, hold, -⟩ := Option.map_eq_some_iff.mp hcell
      have hle := hall id old hold
      rw [size_keepPulses, h.countLit_ascent_keepPulses hkept (h.reaches hold)]
      omega
  have hlow := (hbound (c.litDepth - 1)).mpr (by omega)
  have hhigh := (hbound (c.keepPulses kept).litDepth).mp (Nat.le_refl _)
  omega

/-- Every cell is first on its own way up, so where no way has a lit cell no cell is lit. -/
theorem Rooted.fire_eq_none {c : Circuit} (h : c.Rooted) (hdark : c.litDepth = 0) {id : CellId}
    {cell : Cell} (hcell : c.cell? id = some cell) : cell.fire = .none := by
  have hle := h.keyed.litDepth_le_iff.mp (Nat.le_of_eq hdark) id cell hcell
  have hdim : cell.fire.isLit = false := by
    rw [Bool.eq_false_iff]
    intro hlit
    rcases h.ascent_cases hcell (h.reaches hcell) with ⟨-, hway⟩ | ⟨rest, parent, -, -, -, hway⟩ <;>
      simp [hway, countLit_cons, hlit] at hle
  exact Fire.eq_none_of_dim hdim

/-- A circuit without pulses is projected to itself. -/
theorem Rooted.project_eq_self {c d : Circuit} (h : c.Rooted) (hdark : c.litDepth = 0)
    {validate : Bool} (hproject : c.project validate = .ok d) : d = c := by
  obtain ⟨kept, -, rfl⟩ := project_ok hproject
  rw [keepPulses_eq_mapCells]
  refine mapCells_eq_self fun {id cell} hcell => ?_
  split
  · rfl
  · rw [← h.fire_eq_none hdark hcell]

end Circuit

end PulseCircuit
