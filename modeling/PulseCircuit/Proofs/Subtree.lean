import PulseCircuit.Proofs.Links

/-!
# What lies below a cell

The walk down from a cell works off a stack. Whatever it lists, when it ends, is the listing from the
leaves up of the tree below the cell (`postorder_of_subtree`). In a linked circuit the lists of children
say the same as the parents, so this listing has exactly what climbs to the cell (`mem_subtree_iff`), and
nothing in it lies below what is listed earlier (`Linked.pairwise_subtree`).
-/

namespace PulseCircuit

namespace Circuit

variable {c : Circuit}

/-! ## From the leaves up -/

/-- The trees below some cells are listed one after the other, each cell behind all that lies below it. -/
inductive Postorder (c : Circuit) : List CellId → List CellId → Prop where
  | nil : Postorder c [] []
  | cons {id : CellId} {cell : Cell} {ids below rest : List CellId} (hcell : c.cell? id = some cell)
    (hbelow : Postorder c cell.children below) (hrest : Postorder c ids rest) :
    Postorder c (id :: ids) (below ++ id :: rest)

/-- What is still to be listed when some visits are on the stack. -/
inductive Unwinds (c : Circuit) : List Visit → List CellId → Prop where
  | nil : Unwinds c [] []
  | enter {id : CellId} {cell : Cell} {stack : List Visit} {below rest : List CellId}
    (hcell : c.cell? id = some cell) (hbelow : Postorder c cell.children below)
    (hrest : Unwinds c stack rest) : Unwinds c (.enter id :: stack) (below ++ id :: rest)
  | leave {id : CellId} {stack : List Visit} {rest : List CellId} (hrest : Unwinds c stack rest) :
    Unwinds c (.leave id :: stack) (id :: rest)

/-- Cells to be opened are listed in postorder, and then comes what was on the stack before. -/
theorem Unwinds.split {ids : List CellId} {stack : List Visit} {out : List CellId}
    (h : Unwinds c (ids.map .enter ++ stack) out) :
    ∃ first rest, out = first ++ rest ∧ Postorder c ids first ∧ Unwinds c stack rest := by
  induction ids generalizing out with
  | nil => exact ⟨[], out, rfl, .nil, h⟩
  | cons id ids ih =>
    obtain - | ⟨hcell, hbelow, hrest⟩ | - := h
    obtain ⟨first, rest, rfl, hpost, hstack⟩ := ih hrest
    exact ⟨_, rest, by simp, .cons hcell hbelow hpost, hstack⟩

/-- A walk that ends has listed what its stack stood for. -/
theorem unwinds_of_walk {origin : CellId} {fuel : Nat} {stack : List Visit} {listed out : List CellId}
    (hwalk : c.walk origin fuel stack listed = .ok out) :
    ∃ rest, out = listed ++ rest ∧ Unwinds c stack rest := by
  -- a visit is opened or listed for one unit of fuel, so the induction is on the fuel
  induction fuel generalizing stack listed with
  | zero =>
    cases stack with
    | nil =>
      cases hwalk
      exact ⟨[], by simp, .nil⟩
    | cons visit stack => cases hwalk
  | succ fuel ih =>
    rcases stack with - | ⟨id | id, stack⟩
    · cases hwalk
      exact ⟨[], by simp, .nil⟩
    · cases hcell : c.cell id with
      | error fault =>
        simp only [walk, hcell, bind, Except.bind] at hwalk
        cases hwalk
      | ok cell =>
        simp only [walk, hcell, bind, Except.bind] at hwalk
        obtain ⟨rest, hout, hrest⟩ := ih hwalk
        obtain ⟨below, later, rfl, hbelow, hleave⟩ := hrest.split
        cases hleave with
        | leave hstack => exact ⟨_, hout, .enter (cell_ok_iff.mp hcell) hbelow hstack⟩
    · rw [walk] at hwalk
      obtain ⟨rest, rfl, hrest⟩ := ih hwalk
      exact ⟨id :: rest, by simp, .leave hrest⟩

theorem postorder_of_subtree {id : CellId} {below : List CellId} (hsub : c.subtree id = .ok below) :
    Postorder c [id] below := by
  obtain ⟨rest, rfl, hrest⟩ := unwinds_of_walk hsub
  have hone : Unwinds c ([id].map .enter ++ []) below := hrest
  obtain ⟨first, later, rfl, hpost, hnil⟩ := hone.split
  cases hnil
  simpa using hpost

/-! ## In a linked circuit -/

/-- A cell is below another if it is the cell itself, or below one of its children. -/
theorem climbs_iff_of_linked (h : c.Linked) {id x : CellId} {cell : Cell}
    (hcell : c.cell? id = some cell) :
    Climbs c.parentOf id x ↔ x = id ∨ ∃ child ∈ cell.children, Climbs c.parentOf child x := by
  constructor
  · intro hx
    rcases Relation.ReflTransGen.cases_tail hx with heq | ⟨child, hbelow, hparent⟩
    · exact Or.inl heq.symm
    · exact Or.inr ⟨child, h.tree.links.mem_of_target (childrenOf_eq hcell) hparent, hbelow⟩
  · rintro (rfl | ⟨child, hchild, hbelow⟩)
    · exact Relation.ReflTransGen.refl
    · exact hbelow.tail (h.tree.links.target_of_mem (childrenOf_eq hcell) hchild)

namespace Postorder

variable {ids out : List CellId}

theorem mem_iff (h : c.Linked) (hpost : Postorder c ids out) {x : CellId} :
    x ∈ out ↔ ∃ id ∈ ids, Climbs c.parentOf id x := by
  induction hpost with
  | nil => simp
  | cons hcell _ _ ihbelow ihrest =>
    simp only [List.mem_append, List.mem_cons, ihbelow, ihrest, exists_eq_or_imp,
      climbs_iff_of_linked h hcell]
    rw [← or_assoc, or_comm (a := ∃ id ∈ _, _)]

/-- In the listing of trees that lie apart nothing lies below what is listed earlier. So each cell comes
once, and behind all cells below it. -/
theorem pairwise (h : c.Linked) (hpost : Postorder c ids out)
    (hapart : ids.Pairwise fun a b => ∀ x, Climbs c.parentOf a x → ¬ Climbs c.parentOf b x) :
    out.Pairwise fun x y => ¬ Climbs c.parentOf x y := by
  induction hpost with
  | nil => exact List.Pairwise.nil
  | @cons id cell ids below rest hcell hbelow hrest ihbelow ihrest =>
    obtain ⟨hfirst, hlater⟩ := List.pairwise_cons.mp hapart
    have hup : ∀ child ∈ cell.children, c.parentOf child = some id := fun child =>
      h.tree.links.target_of_mem (childrenOf_eq hcell)
    have hchildren : cell.children.Pairwise fun a b =>
        ∀ x, Climbs c.parentOf a x → ¬ Climbs c.parentOf b x := by
      refine (h.tree.links.nodup (childrenOf_eq hcell)).imp_of_mem fun {a b} ha hb hne x => ?_
      exact h.tree.apart (hup a ha) (hup b hb) hne
    have hunder : ∀ x ∈ below, Climbs c.parentOf id x := by
      intro x hx
      exact (climbs_iff_of_linked h hcell).mpr (Or.inr ((mem_iff h hbelow).mp hx))
    have hbeside : ∀ x, Climbs c.parentOf id x → ∀ y ∈ rest, ¬ Climbs c.parentOf x y := by
      intro x hx y hy hyx
      obtain ⟨other, hother, hyother⟩ := (mem_iff h hrest).mp hy
      exact hfirst other hother y (Relation.ReflTransGen.trans hyx hx) hyother
    refine List.pairwise_append.mpr ⟨ihbelow hchildren, List.pairwise_cons.mpr
      ⟨hbeside id Relation.ReflTransGen.refl, ihrest hlater⟩, fun x hx y hy => ?_⟩
    rcases List.mem_cons.mp hy with rfl | hy
    · -- the way up from below a child comes to the cell, and does not come back
      intro habove
      obtain ⟨child, hchild, hxchild⟩ := (mem_iff h hbelow).mp hx
      exact h.tree.acyclic x ((Relation.TransGen.tail' hxchild (hup child hchild)).trans_left habove)
    · exact hbeside x (hunder x hx) y hy

end Postorder

/-- The subtree of a cell has just the cells that climb to it. -/
theorem mem_subtree_iff (h : c.Linked) {id x : CellId} {below : List CellId}
    (hsub : c.subtree id = .ok below) : x ∈ below ↔ Climbs c.parentOf id x := by
  simp [(postorder_of_subtree hsub).mem_iff h]

theorem Linked.pairwise_subtree (h : c.Linked) {id : CellId} {below : List CellId}
    (hsub : c.subtree id = .ok below) : below.Pairwise fun x y => ¬ Climbs c.parentOf x y :=
  (postorder_of_subtree hsub).pairwise h (List.pairwise_singleton _ _)

/-- A cell that came again would lie below itself. -/
theorem Linked.nodup_subtree (h : c.Linked) {id : CellId} {below : List CellId}
    (hsub : c.subtree id = .ok below) : below.Nodup := by
  refine (h.pairwise_subtree hsub).imp ?_
  rintro x y hnot rfl
  exact hnot Relation.ReflTransGen.refl

/-- The cell itself is listed last. -/
theorem getLast?_subtree {id : CellId} {below : List CellId} (hsub : c.subtree id = .ok below) :
    below.getLast? = some id := by
  cases postorder_of_subtree hsub with
  | cons hcell hbelow hrest =>
    cases hrest
    simp

end Circuit

end PulseCircuit
