import Mathlib.Data.List.Perm.Basic
import Mathlib.Data.Nat.Find
import Mathlib.Logic.Function.Iterate
import PulseCircuit.Proofs.Checked

/-!
# What the check of all rows decides

The check looks at one row at a time, and counts the steps of a climb. What it decides is said of the whole
circuit and counts nothing: both sides of each link say the same, and from each cell some way leads to the
root. The count leaves no way out, since a climb that comes to the root passes no cell twice on the shortest
way.

* `Climbs.exists_short`: a climb that comes to its end does so in fewer steps than there are places;
* `Circuit.Agrees`: what all rows have to say together;
* `Checked.agrees`, `Agrees.checked`: circuits whose rows lie under their own ids pass the check exactly if
  they agree;
* `Rooted.acyclic`, `Checked.acyclic_children`: nothing then lies above or below itself.
-/

namespace PulseCircuit

/-! ## Short ways up -/

namespace Climbs

variable {α : Type} {up : α → Option α} {top : α}

/-- One step up, or none where there is nothing above. -/
def ascend (up : α → Option α) (a : α) : α := (up a).getD a

theorem ascend_of_some {a b : α} (hup : up a = some b) : ascend up a = b := by
  rw [ascend, hup, Option.getD_some]

theorem exists_ascend {a : α} (h : Climbs up top a) : ∃ n, (ascend up)^[n] a = top := by
  induction h using Relation.ReflTransGen.head_induction_on with
  | refl => exact ⟨0, rfl⟩
  | head hup _ ih =>
    obtain ⟨n, hn⟩ := ih
    exact ⟨n + 1, by rw [Function.iterate_succ_apply, ascend_of_some hup, hn]⟩

theorem ascend_climbs (htop : up top = none) {a : α} (h : Climbs up top a) :
    Climbs up top (ascend up a) := by
  rcases Relation.ReflTransGen.cases_head h with rfl | ⟨b, hup, hb⟩
  · rw [ascend, htop]
    exact h
  · rw [ascend_of_some hup]
    exact hb

theorem iterate_ascend (htop : up top = none) {a : α} (h : Climbs up top a) (n : Nat) :
    Climbs up top ((ascend up)^[n] a) := by
  induction n generalizing a with
  | zero => exact h
  | succ n ih => exact ih (ascend_climbs htop h)

/-- The shortest climb passes no place twice, so it takes fewer steps than there are places. -/
theorem exists_short [DecidableEq α] (htop : up top = none) {places : List α}
    (hplaces : ∀ a, Climbs up top a → a ∈ places) {a : α} (h : Climbs up top a) :
    ∃ n, n < places.length ∧ (ascend up)^[n] a = top := by
  have hends := h.exists_ascend
  -- two visits to one place would make a shorter climb
  have hdistinct : ∀ i j, i < j → j ≤ Nat.find hends →
      (ascend up)^[i] a ≠ (ascend up)^[j] a := by
    intro i j hij hj hsame
    refine Nat.find_min hends (m := Nat.find hends - j + i) (by omega) ?_
    calc (ascend up)^[Nat.find hends - j + i] a
      _ = (ascend up)^[Nat.find hends - j] ((ascend up)^[j] a) := by
        rw [Function.iterate_add_apply, hsame]
      _ = (ascend up)^[Nat.find hends] a := by
        rw [← Function.iterate_add_apply, Nat.sub_add_cancel hj]
      _ = top := Nat.find_spec hends
  have hnodup : ((List.range (Nat.find hends + 1)).map fun n => (ascend up)^[n] a).Nodup := by
    refine List.Nodup.map_on (fun i hi j hj hsame => ?_) List.nodup_range
    rw [List.mem_range] at hi hj
    rcases Nat.lt_trichotomy i j with hlt | rfl | hlt
    · exact absurd hsame (hdistinct i j hlt (by omega))
    · rfl
    · exact absurd hsame.symm (hdistinct j i hlt (by omega))
  have hsub : ((List.range (Nat.find hends + 1)).map fun n => (ascend up)^[n] a) ⊆ places := by
    intro b hb
    obtain ⟨n, -, rfl⟩ := List.mem_map.mp hb
    exact hplaces _ (iterate_ascend htop h n)
  have hle := (List.subperm_of_subset hnodup hsub).length_le
  rw [List.length_map, List.length_range] at hle
  exact ⟨Nat.find hends, hle, Nat.find_spec hends⟩

end Climbs

namespace Circuit

variable {c : Circuit}

/-! ## Climbs with and without a count -/

theorem reachesRoot_mono {fuel more : Nat} (hle : fuel ≤ more) {id : CellId}
    (h : c.reachesRoot fuel id = true) : c.reachesRoot more id = true := by
  induction fuel generalizing id more with
  | zero =>
    have hroot : id.isRoot = true := by simpa [reachesRoot] using h
    cases more <;> simp [reachesRoot, hroot]
  | succ fuel ih =>
    obtain ⟨more, rfl⟩ : ∃ rest, more = rest + 1 := ⟨more - 1, by omega⟩
    rw [reachesRoot_succ, Bool.or_eq_true, Option.any_eq_true] at h ⊢
    refine h.imp_right ?_
    rintro ⟨parent, hup, hrest⟩
    exact ⟨parent, hup, ih (by omega) hrest⟩

theorem reachesRoot_of_ascend {n : Nat} {id : CellId}
    (h : (Climbs.ascend c.parentOf)^[n] id = .root) : c.reachesRoot n id = true := by
  induction n generalizing id with
  | zero =>
    obtain rfl : id = .root := h
    rfl
  | succ n ih =>
    rw [Function.iterate_succ_apply] at h
    have hrest := ih h
    cases hup : c.parentOf id with
    | none =>
      rw [Climbs.ascend, hup, Option.getD_none] at hrest
      exact reachesRoot_mono (Nat.le_succ n) hrest
    | some parent =>
      rw [Climbs.ascend_of_some hup] at hrest
      rw [reachesRoot_succ, hup, Option.any_some, hrest, Bool.or_true]

theorem climbs_of_reachesRoot {fuel : Nat} {id : CellId} (h : c.reachesRoot fuel id = true) :
    Climbs c.parentOf .root id := by
  induction fuel generalizing id with
  | zero =>
    have hroot : id = .root := by simpa [reachesRoot, CellId.isRoot] using h
    rw [hroot]
    exact Relation.ReflTransGen.refl
  | succ fuel ih =>
    rw [reachesRoot_succ, Bool.or_eq_true, Option.any_eq_true] at h
    rcases h with hroot | ⟨parent, hup, hrest⟩
    · have hroot : id = .root := by simpa [CellId.isRoot] using hroot
      rw [hroot]
      exact Relation.ReflTransGen.refl
    · exact (ih hrest).step hup

theorem Rooted.parentOf_root (h : c.Rooted) : c.parentOf .root = none := by
  rw [Circuit.parentOf, ofCells]
  cases hcell : c.cell? .root with
  | none => rfl
  | some cell => exact h.top hcell

/-- No cell lies above itself. -/
theorem Rooted.acyclic (h : c.Rooted) (id : CellId) :
    ¬ Relation.TransGen (fun x y => c.parentOf x = some y) id id := by
  intro hcycle
  obtain ⟨parent, hup, -⟩ := Relation.TransGen.head'_iff.mp hcycle
  obtain ⟨cell, hcell⟩ := cell?_of_ofCells hup
  exact (climbs_of_reachesRoot (h.reaches hcell)).acyclic h.parentOf_root hcycle

/-- Whatever climbs to a live cell is a live cell. -/
theorem live_of_climbs {top id : CellId} (htop : ∃ cell, c.cell? top = some cell)
    (hclimbs : Climbs c.parentOf top id) : ∃ cell, c.cell? id = some cell := by
  rcases Relation.ReflTransGen.cases_head hclimbs with rfl | ⟨parent, hup, -⟩
  · exact htop
  · exact cell?_of_ofCells hup

/-- The way of a cell to the root is never too long for the count. -/
theorem reachesRoot_of_climbs (htop : c.parentOf .root = none) (hroot : ∃ cell, c.cell? .root = some cell)
    {id : CellId} (hclimbs : Climbs c.parentOf .root id) : c.reachesRoot c.size id = true := by
  have hplaces : ∀ id, Climbs c.parentOf .root id →
      id ∈ c.live.keys.map fun id => (⟨id.raw⟩ : CellId) := by
    intro id hclimbs
    obtain ⟨cell, hcell⟩ := live_of_climbs hroot hclimbs
    exact List.mem_map.mpr ⟨id.toId, mem_keys_of_cell? hcell, rfl⟩
  obtain ⟨n, hn, hend⟩ := Climbs.exists_short htop hplaces hclimbs
  rw [List.length_map, Table.keys, List.length_map] at hn
  exact reachesRoot_mono (Nat.le_of_lt hn) (reachesRoot_of_ascend hend)

/-! ## Agreement of all rows -/

/-- The first cell is live and names the second as its parent. -/
def HangsOn (c : Circuit) (id parent : CellId) : Prop :=
  ∃ cell, c.cell id = .ok cell ∧ cell.parent = some parent

/-- The first cell is live and lists the second as a child. -/
def ListsChild (c : Circuit) (id child : CellId) : Prop :=
  ∃ cell, c.cell id = .ok cell ∧ child ∈ cell.children

/-- The rows of a circuit agree with one another, and no cell is away from the root. -/
structure Agrees (c : Circuit) : Prop where
  /-- The root has no parent, and it alone has none. -/
  parentless : ∀ id cell, c.cell id = .ok cell → (cell.parent = none ↔ id = .root)
  /-- A cell that is named as a parent is live and lists the child. -/
  parent : ∀ id cell parent, c.cell id = .ok cell → cell.parent = some parent →
    ∃ above, c.cell parent = .ok above ∧ id ∈ above.children
  /-- A cell that is listed as a child is live and names the parent. -/
  child : ∀ id cell child, c.cell id = .ok cell → child ∈ cell.children →
    ∃ below, c.cell child = .ok below ∧ below.parent = some id
  /-- A wire that is listed as an input is live and ends there. -/
  input : ∀ id cell input, c.cell id = .ok cell → input ∈ cell.inputs →
    ∃ wire, c.wire input = .ok wire ∧ wire.target = id
  /-- A wire that is listed as an output is live and starts there. -/
  output : ∀ id cell output, c.cell id = .ok cell → output ∈ cell.outputs →
    ∃ wire, c.wire output = .ok wire ∧ wire.source = id
  /-- The cell a wire starts at is live and lists the wire. -/
  source : ∀ id wire, c.wire id = .ok wire →
    ∃ source, c.cell wire.source = .ok source ∧ id ∈ source.outputs
  /-- The cell a wire ends at is live and lists the wire. -/
  target : ∀ id wire, c.wire id = .ok wire →
    ∃ target, c.cell wire.target = .ok target ∧ id ∈ target.inputs
  /-- Following parents leads to the root, in however many steps. -/
  reaches : ∀ id cell, c.cell id = .ok cell → Relation.ReflTransGen c.HangsOn id .root

theorem hangsOn_eq (c : Circuit) : c.HangsOn = fun id parent => c.parentOf id = some parent := by
  funext id parent
  rw [HangsOn, parentOf, ofCells, eq_iff_iff, Option.bind_eq_some_iff]
  simp only [cell_ok_iff]

theorem id_of_wire? (h : c.Keyed) {id : WireId} {wire : Wire} (hwire : c.wire? id = some wire) :
    wire.id = id :=
  WireId.toId_inj.mp (h (wire?_eq_some_iff.mp hwire))

/-- What passes the check row by row agrees as a whole. -/
theorem Checked.agrees (h : c.Checked) : c.Agrees := by
  have hcells : ∀ id cell, c.cell id = .ok cell → cell.id = id ∧ c.cellDefect? cell = none := by
    intro id cell hcell
    exact ⟨id_of_cell? h.keyed (cell_ok_iff.mp hcell), h.cell_agrees (cell_ok_iff.mp hcell)⟩
  have hwires : ∀ id wire, c.wire id = .ok wire → wire.id = id ∧ c.wireDefect? wire = none := by
    intro id wire hwire
    exact ⟨id_of_wire? h.keyed (wire_ok_iff.mp hwire), h.agree (wire?_eq_some_iff.mp (wire_ok_iff.mp hwire))⟩
  constructor
  case parentless =>
    intro id cell hcell
    rcases hcells id cell hcell with ⟨rfl, hnone⟩
    exact (parentDefect?_eq_none_iff.mp (cellDefect?_eq_none_iff.mp hnone).1).1
  case parent =>
    intro id cell parent hcell
    rcases hcells id cell hcell with ⟨rfl, hnone⟩
    exact (parentDefect?_eq_none_iff.mp (cellDefect?_eq_none_iff.mp hnone).1).2 parent
  case child =>
    intro id cell child hcell hchild
    rcases hcells id cell hcell with ⟨rfl, hnone⟩
    exact childDefect?_eq_none_iff.mp ((cellDefect?_eq_none_iff.mp hnone).2.1 child hchild)
  case input =>
    intro id cell input hcell hinput
    rcases hcells id cell hcell with ⟨rfl, hnone⟩
    exact inputDefect?_eq_none_iff.mp ((cellDefect?_eq_none_iff.mp hnone).2.2.1 input hinput)
  case output =>
    intro id cell output hcell houtput
    rcases hcells id cell hcell with ⟨rfl, hnone⟩
    exact outputDefect?_eq_none_iff.mp ((cellDefect?_eq_none_iff.mp hnone).2.2.2.1 output houtput)
  case source =>
    intro id wire hwire
    rcases hwires id wire hwire with ⟨rfl, hnone⟩
    exact (wireDefect?_eq_none_iff.mp hnone).1
  case target =>
    intro id wire hwire
    rcases hwires id wire hwire with ⟨rfl, hnone⟩
    exact (wireDefect?_eq_none_iff.mp hnone).2
  case reaches =>
    intro id cell hcell
    rw [hangsOn_eq]
    exact climbs_of_reachesRoot (h.rooted.reaches (cell_ok_iff.mp hcell))

namespace Agrees

theorem parentOf_root (h : c.Agrees) : c.parentOf .root = none := by
  rw [Option.eq_none_iff_forall_ne_some]
  intro parent hup
  obtain ⟨cell, hcell⟩ := cell?_of_ofCells hup
  rw [parentOf_eq hcell, (h.parentless .root cell (cell_ok_iff.mpr hcell)).mpr rfl] at hup
  cases hup

/-- Where there is a cell at all, there is the root. -/
theorem root_live (h : c.Agrees) {id : CellId} {cell : Cell} (hcell : c.cell id = .ok cell) :
    ∃ root, c.cell? .root = some root := by
  rcases Relation.ReflTransGen.cases_tail (h.reaches id cell hcell) with hroot | ⟨last, -, below, hlast, hup⟩
  · exact ⟨cell, by rw [hroot]; exact cell_ok_iff.mp hcell⟩
  · obtain ⟨root, hlive, -⟩ := h.parent last below .root hlast hup
    exact ⟨root, cell_ok_iff.mp hlive⟩

/-- Where all rows agree, none of them has a defect. -/
theorem checked (h : c.Agrees) (hkeyed : c.Keyed) : c.Checked where
  keyed := hkeyed
  agree := by
    intro id row hrow
    rcases row with cell | wire
    · have hlook : c.cell ⟨id.raw⟩ = .ok cell := cell_eq_ok_iff.mpr hrow
      have hid := id_of_cell? hkeyed (cell_ok_iff.mp hlook)
      rw [← hid] at hlook
      refine cellDefect?_eq_none_iff.mpr ⟨?_, ?_, ?_, ?_, ?_⟩
      · exact parentDefect?_eq_none_iff.mpr
          ⟨h.parentless cell.id cell hlook, fun parent => h.parent cell.id cell parent hlook⟩
      · exact fun child hchild => childDefect?_eq_none_iff.mpr (h.child cell.id cell child hlook hchild)
      · exact fun input hinput => inputDefect?_eq_none_iff.mpr (h.input cell.id cell input hlook hinput)
      · exact fun output houtput =>
          outputDefect?_eq_none_iff.mpr (h.output cell.id cell output hlook houtput)
      · have hclimbs := h.reaches cell.id cell hlook
        rw [hangsOn_eq] at hclimbs
        exact ascentDefect?_eq_none_iff.mpr
          (reachesRoot_of_climbs h.parentOf_root (h.root_live hlook) hclimbs)
    · have hlook : c.wire ⟨id.raw⟩ = .ok wire := wire_eq_ok_iff.mpr hrow
      have hid := id_of_wire? hkeyed (wire_ok_iff.mp hlook)
      rw [← hid] at hlook
      exact wireDefect?_eq_none_iff.mpr ⟨h.source wire.id wire hlook, h.target wire.id wire hlook⟩

end Agrees

/-- No cell of a checked circuit comes again below itself. -/
theorem Checked.acyclic_children (h : c.Checked) (id : CellId) :
    ¬ Relation.TransGen c.ListsChild id id := by
  intro hcycle
  -- turned around, a way down the children is a way up the parents
  have hparents : ∀ x y, c.ListsChild x y → c.parentOf y = some x := by
    rintro x y ⟨cell, hcell, hchild⟩
    obtain ⟨below, hbelow, hup⟩ := h.child_live (cell_ok_iff.mp hcell) hchild
    exact (parentOf_eq hbelow).trans hup
  exact h.rooted.acyclic id (Relation.TransGen.swap id id (Relation.TransGen.mono hparents id id hcycle))

/-- The check of all rows accepts the circuits whose rows agree as a whole, and no others. In what it accepts,
no cell lies below itself. -/
theorem checkAll_ok_iff_agrees {c : Circuit} (hkeyed : c.Keyed) :
    (c.checkAll = .ok () ↔ c.Agrees) ∧
      (c.checkAll = .ok () → ∀ id, ¬ Relation.TransGen c.ListsChild id id) := by
  refine ⟨⟨?_, ?_⟩, ?_⟩
  · exact fun hcheck => (checked_of_checkAll hkeyed hcheck).agrees
  · exact fun hagrees => (hagrees.checked hkeyed).checkAll_ok
  · exact fun hcheck => (checked_of_checkAll hkeyed hcheck).acyclic_children

/-- A relay below the root looks back at itself. -/
def echo : Circuit where
  live := .ofList
    [(⟨0⟩, .cell ⟨.root, none, .relay, .origin, [⟨1⟩], [], [], .none, []⟩),
      (⟨1⟩, .cell ⟨⟨1⟩, some .root, .relay, .origin, [], [⟨-1⟩], [⟨-1⟩], .none, []⟩),
      (⟨-1⟩, .wire ⟨⟨-1⟩, ⟨1⟩, ⟨1⟩, .any, .past⟩)]
  archive := .empty
  ids := { IdPool.empty with nextCell := 2, nextWire := -2 }

/-- Two cells away from the root, each of them the parent and the child of the other. -/
def entwined : Circuit where
  live := .ofList
    [(⟨0⟩, .cell (.fresh .root none .relay .origin)),
      (⟨1⟩, .cell ⟨⟨1⟩, some ⟨2⟩, .relay, .origin, [⟨2⟩], [], [], .none, []⟩),
      (⟨2⟩, .cell ⟨⟨2⟩, some ⟨1⟩, .relay, .origin, [⟨1⟩], [], [], .none, []⟩)]
  archive := .empty
  ids := { IdPool.empty with nextCell := 3 }

theorem keyed_echo : echo.Keyed := keyed_of_rows (by decide)

theorem keyed_entwined : entwined.Keyed := keyed_of_rows (by decide)

/-- Of two circuits whose neighbours agree, the one with a loop of parents does not pass. -/
theorem agrees_echo_not_entwined :
    (echo.Keyed ∧ echo.checkAll = .ok () ∧ echo.Agrees ∧ ∀ id, ¬ Relation.TransGen echo.ListsChild id id) ∧
      entwined.Keyed ∧ entwined.checkAll ≠ .ok () ∧ ¬ entwined.Agrees := by
  have hecho : echo.checkAll = .ok () := by decide
  have hentwined : entwined.checkAll ≠ .ok () := by decide
  refine ⟨⟨keyed_echo, hecho, ?_, ?_⟩, keyed_entwined, hentwined, ?_⟩
  · exact (checkAll_ok_iff_agrees keyed_echo).1.mp hecho
  · exact (checkAll_ok_iff_agrees keyed_echo).2 hecho
  · exact fun hagrees => hentwined ((checkAll_ok_iff_agrees keyed_entwined).1.mpr hagrees)

end Circuit

end PulseCircuit
