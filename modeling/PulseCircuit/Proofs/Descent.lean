import PulseCircuit.Proofs.Consistent
import PulseCircuit.Proofs.Reachable

/-!
# The walk down as a recursion

The walk down from a cell keeps a stack, on which it meets each cell twice: first to open it, and then, with
everything below it listed, to list it. What it comes to can be said without a stack. By recursion, the trees
below the children are listed one after the other, and then the cell itself. In a linked circuit the walk comes
to that listing, and it comes to its end by itself: it takes two turns for each cell it lists, and no bound that
leaves it these changes anything.

Opening a cell makes the stack higher, so its height is no measure of what is left to do. The number of turns
that are left is one: two for each cell that is still to be listed, less one for each that is open already.

* `Outstanding.turn`, `Outstanding.walk_eq`: what is left after one turn, and what a walk comes to from any stack;
* `Linked.wellFounded_children`, `Linked.postorder`: no way down goes on for ever, and so the recursion ends;
* `Linked.postorder_unique`: there is no other listing in postorder;
* `Reachable.subtree_postorder`: the walk and the recursion list the same.
-/

namespace PulseCircuit

namespace Circuit

variable {c : Circuit}

/-! ## What is left of a walk -/

/-- How many cells on a stack are open. -/
def openOn : List Visit → Nat
  | [] => 0
  | .enter _ :: stack => openOn stack
  | .leave _ :: stack => openOn stack + 1

theorem openOn_enterAll (ids : List CellId) (stack : List Visit) :
    openOn (ids.map .enter ++ stack) = openOn stack := by
  induction ids with
  | nil => rfl
  | cons id ids ih => exact ih

/-- Trees that are listed in postorder can be put on top of any stack. -/
theorem Postorder.unwinds {ids first rest : List CellId} {stack : List Visit}
    (hpost : Postorder c ids first) (hstack : Unwinds c stack rest) :
    Unwinds c (ids.map .enter ++ stack) (first ++ rest) := by
  induction hpost with
  | nil => exact hstack
  | cons hcell hbelow _ _ ihrest =>
    rw [List.append_assoc]
    exact .enter hcell hbelow ihrest

/-- An open cell is still to be listed. -/
theorem Unwinds.openOn_le {stack : List Visit} {rest : List CellId} (h : Unwinds c stack rest) :
    openOn stack ≤ rest.length := by
  induction h with
  | nil => exact Nat.le_refl 0
  | enter _ _ _ ih =>
    rw [List.length_append, List.length_cons]
    exact Nat.le_add_left_of_le (Nat.le_succ_of_le ih)
  | leave _ ih => exact Nat.succ_le_succ ih

/-- The cells that are still to be listed when some visits are on the stack, and how many turns that takes:
two for each of them, less one for each that is open already. -/
structure Outstanding (c : Circuit) (stack : List Visit) (rest : List CellId) (turns : Nat) : Prop where
  unwinds : Unwinds c stack rest
  count : turns + openOn stack = 2 * rest.length

namespace Outstanding

variable {origin : CellId} {stack : List Visit} {visit : Visit} {rest : List CellId} {turns : Nat}

theorem of_subtree {id : CellId} (hsub : c.subtree id = .ok rest) :
    c.Outstanding [.enter id] rest (2 * rest.length) where
  unwinds := by
    have hstack : Unwinds c [.enter id] (rest ++ []) := (postorder_of_subtree hsub).unwinds .nil
    rwa [List.append_nil] at hstack
  count := rfl

/-- A turn opens a cell and lists none, or it lists the cell that is open on top. Either way one turn less is
left, and the cells come in the same order. -/
theorem turn (h : c.Outstanding (visit :: stack) rest turns) :
    ∃ stack' now later turns', rest = now ++ later ∧ turns = turns' + 1 ∧ c.Outstanding stack' later turns' ∧
      ∀ origin steps listed,
        c.walk origin (steps + 1) (visit :: stack) listed = c.walk origin steps stack' (listed ++ now) := by
  obtain ⟨hunwinds, hcount⟩ := h
  cases hunwinds with
  | @enter id cell _ below rest hcell hbelow hrest =>
    have hopen := hrest.openOn_le
    rw [openOn, List.length_append, List.length_cons] at hcount
    refine ⟨_, [], below ++ id :: rest, turns - 1, rfl, by omega, ⟨hbelow.unwinds (.leave hrest), ?_⟩, ?_⟩
    · -- the cell stays on the stack and is open now
      rw [openOn_enterAll, openOn, List.length_append, List.length_cons]
      omega
    · intro origin steps listed
      rw [walk, cell_ok_iff.mpr hcell, List.append_nil]
      rfl
  | @leave id _ rest hrest =>
    have hopen := hrest.openOn_le
    rw [openOn, List.length_cons] at hcount
    refine ⟨stack, [id], rest, turns - 1, rfl, by omega, ⟨hrest, by omega⟩, ?_⟩
    intro origin steps listed
    rw [walk]

/-- A walk that has as many turns as are left comes to its end. With fewer it is stopped. -/
theorem walk_eq (h : c.Outstanding stack rest turns) (origin : CellId) (steps : Nat) (listed : List CellId) :
    c.walk origin steps stack listed =
      if turns ≤ steps then .ok (listed ++ rest) else .error (.endless origin) := by
  -- one turn less is left after each, so the induction is on their number and not on the stack
  induction turns generalizing stack rest steps listed with
  | zero =>
    cases stack with
    | nil =>
      cases h.unwinds
      rw [if_pos (Nat.zero_le _), List.append_nil]
      cases steps <;> rfl
    | cons visit stack =>
      obtain ⟨_, _, _, _, -, hturns, -, -⟩ := h.turn
      cases hturns
  | succ turns ih =>
    cases stack with
    | nil =>
      have hcount := h.count
      cases h.unwinds
      cases hcount
    | cons visit stack =>
      obtain ⟨stack', now, later, turns', rfl, hturns, hlater, hwalk⟩ := h.turn
      cases hturns
      cases steps with
      | zero => rw [walk, if_neg (Nat.not_succ_le_zero turns)]
      | succ steps =>
        rw [hwalk, ih hlater, List.append_assoc]
        simp only [Nat.add_le_add_iff_right]

end Outstanding

/-! ## The recursion -/

/-- What is listed from the leaves up has no endless way down. -/
theorem Postorder.acc {ids out : List CellId} (hpost : Postorder c ids out) :
    ∀ id ∈ ids, Acc (fun child id => c.ListsChild id child) id := by
  induction hpost with
  | nil => exact fun id hid => absurd hid List.not_mem_nil
  | @cons id cell ids _ _ hcell _ _ ihbelow ihrest =>
    intro x hx
    rcases List.mem_cons.mp hx with rfl | hx
    · refine Acc.intro _ fun child => ?_
      rintro ⟨other, hother, hchild⟩
      obtain rfl : cell = other := Option.some.inj (hcell.symm.trans (cell_ok_iff.mp hother))
      exact ihbelow child hchild
    · exact ihrest x hx

namespace Linked

/-- From one child to the next, each way down a linked circuit ends. -/
theorem wellFounded_children (h : c.Linked) : WellFounded fun child id => c.ListsChild id child := by
  refine ⟨fun id => Acc.intro id fun child => ?_⟩
  rintro ⟨cell, hcell, hchild⟩
  -- only a live cell lists a child, and from a live cell everything below is listed
  obtain ⟨below, hsub⟩ := h.checked.subtree_ok (cell_ok_iff.mp hcell)
  exact ((postorder_of_subtree hsub).acc id (List.mem_singleton_self id)).inv ⟨cell, hcell, hchild⟩

/-- The listing of a tree by recursion: the trees below the children in their order, and then the cell. -/
def postorder (h : c.Linked) (id : CellId) : List CellId :=
  match _hcell : c.cell? id with
  | none => []
  | some cell => (cell.children.attach.flatMap fun child => h.postorder child.val) ++ [id]
termination_by h.wellFounded_children.wrap id
decreasing_by exact ⟨cell, cell_ok_iff.mpr _hcell, child.property⟩

theorem postorder_eq (h : c.Linked) {id : CellId} {cell : Cell} (hcell : c.cell? id = some cell) :
    h.postorder id = cell.children.flatMap h.postorder ++ [id] := by
  rw [postorder]
  split
  next hnone =>
    rw [hcell] at hnone
    cases hnone
  next other hother =>
    obtain rfl : cell = other := Option.some.inj (hcell.symm.trans hother)
    simp only [List.flatMap_subtype, List.unattach_attach]

/-- What is listed in postorder is what the recursion lists. -/
theorem postorder_unique (h : c.Linked) {ids out : List CellId} (hpost : Postorder c ids out) :
    out = ids.flatMap h.postorder := by
  induction hpost with
  | nil => rfl
  | @cons id cell ids below rest hcell _ _ ihbelow ihrest =>
    calc below ++ id :: rest
      _ = (cell.children.flatMap h.postorder ++ [id]) ++ ids.flatMap h.postorder := by
        rw [← ihbelow, ← ihrest, List.append_assoc, List.singleton_append]
      _ = (id :: ids).flatMap h.postorder := by rw [← h.postorder_eq hcell, List.flatMap_cons]

end Linked

/-! ## The walk -/

/-- The walk down from a live cell comes to its end after two turns for each cell it lists, and a larger bound makes
no difference. It lists what the recursion lists: the trees below the children in their order, and then the cell.
These are the cell and all live cells that have it on their way up. Each of them is listed once, and before every
cell that lies above it. -/
theorem Reachable.subtree_postorder (h : Reachable c) {id : CellId} {cell : Cell}
    (hcell : c.cell id = .ok cell) :
    ∃ below, c.subtree id = .ok below ∧
      (∀ origin steps, c.walk origin steps [.enter id] [] =
        if 2 * below.length ≤ steps then .ok below else .error (.endless origin)) ∧
      below = h.sound.linked.postorder id ∧
      below = cell.children.flatMap h.sound.linked.postorder ++ [id] ∧
      below.Nodup ∧
      (∀ x, x ∈ below ↔ (∃ other, c.cell x = .ok other) ∧ Climbs c.parentOf id x) ∧
      below.Pairwise fun x y => ¬ Climbs c.parentOf x y := by
  have hlinked := h.sound.linked
  have hlive := cell_ok_iff.mp hcell
  obtain ⟨below, hsub⟩ := hlinked.checked.subtree_ok hlive
  have hlisting : below = hlinked.postorder id := by
    rw [hlinked.postorder_unique (postorder_of_subtree hsub), List.flatMap_singleton]
  refine ⟨below, hsub, ?_, hlisting, ?_, hlinked.nodup_subtree hsub, ?_, hlinked.pairwise_subtree hsub⟩
  · intro origin steps
    exact (Outstanding.of_subtree hsub).walk_eq origin steps []
  · exact hlisting.trans (hlinked.postorder_eq hlive)
  · intro x
    rw [mem_subtree_iff hlinked hsub]
    constructor
    · intro hx
      obtain ⟨other, hother⟩ := live_of_climbs ⟨cell, hlive⟩ hx
      exact ⟨⟨other, cell_ok_iff.mpr hother⟩, hx⟩
    · rintro ⟨-, hx⟩
      exact hx

/-- In the end the second cell was moved below the first one, so children are not listed by their numbers. -/
def spread : Circuit :=
  initial.performAll true
    [.createCell .root .relay .origin, .createCell .root .relay .origin, .createCell ⟨1⟩ .relay .origin,
      .createCell ⟨1⟩ .relay .origin, .createCell ⟨3⟩ .relay .origin, .modifyCell ⟨2⟩ (.ofParent ⟨1⟩)]

theorem reachable_spread : Reachable spread := .performAll .initial true _

/-- The five cells below the first one take ten turns. -/
theorem subtree_postorder_spread :
    spread.subtree ⟨1⟩ = .ok [⟨5⟩, ⟨3⟩, ⟨4⟩, ⟨2⟩, ⟨1⟩] ∧
      reachable_spread.sound.linked.postorder ⟨1⟩ = [⟨5⟩, ⟨3⟩, ⟨4⟩, ⟨2⟩, ⟨1⟩] ∧
      spread.walk ⟨1⟩ 10 [.enter ⟨1⟩] [] = .ok [⟨5⟩, ⟨3⟩, ⟨4⟩, ⟨2⟩, ⟨1⟩] ∧
      spread.walk ⟨1⟩ 9 [.enter ⟨1⟩] [] = .error (.endless ⟨1⟩) ∧
      ∀ x, x ∈ ([⟨5⟩, ⟨3⟩, ⟨4⟩, ⟨2⟩, ⟨1⟩] : List CellId) ↔
        (∃ other, spread.cell x = .ok other) ∧ Climbs spread.parentOf ⟨1⟩ x := by
  obtain ⟨cell, hcell⟩ : ∃ cell, spread.cell ⟨1⟩ = .ok cell := ⟨_, rfl⟩
  obtain ⟨below, hsub, hwalk, hlisting, -, -, hmem, -⟩ := reachable_spread.subtree_postorder hcell
  have hbelow : spread.subtree ⟨1⟩ = .ok [⟨5⟩, ⟨3⟩, ⟨4⟩, ⟨2⟩, ⟨1⟩] := rfl
  cases hsub.symm.trans hbelow
  exact ⟨hbelow, hlisting.symm, hwalk ⟨1⟩ 10, hwalk ⟨1⟩ 9, hmem⟩

end Circuit

end PulseCircuit
