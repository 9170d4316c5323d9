import Mathlib.Data.List.Dedup
import PulseCircuit.Proofs.Cascades
import PulseCircuit.Proofs.Faults

/-!
# The order in which things came

Rows are listed in the order in which they were created, and the wires and children of a cell in the order in
which they were attached to it. Ids are used again, and ends of wires and cells move away and come back, so the
order is not one of ids: what counts is when something came last. A chronicle writes down with each action what it
creates and attaches, and a list is read off it by leaving out all but the last mention of each id.

* `Renewed`: how one step changes a list, which is by taking out what it likes and adding new items at the end;
* `Action.events`, `Chronicle`: what an action creates and attaches, and the actions one after the other;
* `Records`: from before to after some changes every list is renewed by what happened, with one lemma for each
  change and `Sound.records` for actions;
* `Chronicle.in_order`: every list of every reachable circuit is in the order of its chronicle.
-/

namespace PulseCircuit

/-! ## Lists that are added to at the end -/

section Lists

variable {α : Type} [DecidableEq α] {xs ys zs news more : List α} {x : α}

/-- What comes again stands where it came last. -/
theorem dedup_append_eq_filter (xs news : List α) :
    (xs ++ news).dedup = xs.dedup.filter (· ∉ news) ++ news.dedup := by
  induction xs with
  | nil => rfl
  | cons x xs ih =>
    by_cases hlater : x ∈ xs
    · rw [List.dedup_cons_of_mem hlater, ← ih]
      exact List.dedup_cons_of_mem (List.mem_append_left news hlater)
    · rw [List.dedup_cons_of_notMem hlater]
      by_cases hnew : x ∈ news
      · rw [List.filter_cons_of_neg (by simpa using hnew), ← ih]
        exact List.dedup_cons_of_mem (List.mem_append_right xs hnew)
      · rw [List.filter_cons_of_pos (by simpa using hnew), List.cons_append, List.cons_append, ← ih]
        exact List.dedup_cons_of_notMem (by simp [hlater, hnew])

/-- A part of a list is made of the items that are in it. -/
theorem filter_mem_of_sublist (h : xs.Sublist ys) (hnodup : ys.Nodup) : ys.filter (· ∈ xs) = xs := by
  induction h with
  | slnil => rfl
  | @cons xs ys y hsub ih =>
    rw [List.nodup_cons] at hnodup
    have hout : y ∉ xs := fun hy => hnodup.1 (hsub.subset hy)
    rw [List.filter_cons_of_neg (by simpa using hout), ih hnodup.2]
  | @cons_cons xs ys y hsub ih =>
    rw [List.nodup_cons] at hnodup
    rw [List.filter_cons_of_pos (by simp)]
    congr 1
    refine (List.filter_congr fun z hz => ?_).trans (ih hnodup.2)
    have hne : z ≠ y := by
      rintro rfl
      exact hnodup.1 hz
    simp [hne]

/-- The last list is what is left of the first one, and behind it what came anew. -/
def Renewed (xs news ys : List α) : Prop := ys.Sublist (xs.filter (· ∉ news) ++ news.dedup)

theorem renewed_nil_iff : Renewed xs [] ys ↔ ys.Sublist xs := by simp [Renewed]

theorem Renewed.refl (xs : List α) : Renewed xs [] xs := renewed_nil_iff.mpr (List.Sublist.refl xs)

theorem Renewed.push (h : ys.Sublist xs) (hx : x ∉ ys) : Renewed xs [x] (ys ++ [x]) := by
  have hkept : ys.filter (· ∉ [x]) = ys := by
    refine List.filter_eq_self.mpr fun y hy => ?_
    have hne : y ≠ x := by
      rintro rfl
      exact hx hy
    simpa using hne
  have hrest : ys.Sublist (xs.filter (· ∉ [x])) := by
    rw [← hkept]
    exact h.filter _
  exact hrest.append (List.Sublist.refl [x])

theorem Renewed.trans (h : Renewed xs news ys) (h' : Renewed ys more zs) : Renewed xs (news ++ more) zs := by
  have hrest : (ys.filter (· ∉ more)).Sublist
      (xs.filter (· ∉ news ++ more) ++ news.dedup.filter (· ∉ more)) := by
    have hfilter := List.Sublist.filter (· ∉ more) h
    rw [List.filter_append, List.filter_filter] at hfilter
    simpa [List.mem_append, not_or, Bool.and_comm] using hfilter
  rw [Renewed, dedup_append_eq_filter, ← List.append_assoc]
  exact List.Sublist.trans h' (hrest.append (List.Sublist.refl _))

/-- What has been renewed from nothing has each item where it came last. -/
theorem Renewed.eq_filter (h : Renewed [] news ys) {p : α → Prop} [DecidablePred p] (hp : ∀ x, x ∈ ys ↔ p x) :
    ys = news.dedup.filter p := by
  simp only [← hp]
  exact (filter_mem_of_sublist h (List.nodup_dedup news)).symm

end Lists

/-- The lists of a cell are what is left of the lists of another one. -/
structure Cell.Sheds (new old : Cell) : Prop where
  children : new.children.Sublist old.children
  outputs : new.outputs.Sublist old.outputs
  inputs : new.inputs.Sublist old.inputs

namespace Cell

theorem Sheds.refl (cell : Cell) : cell.Sheds cell := ⟨.refl _, .refl _, .refl _⟩

theorem SameLinks.sheds {new old : Cell} (h : new.SameLinks old) : new.Sheds old where
  children := by rw [h.children]
  outputs := by rw [h.outputs]
  inputs := by rw [h.inputs]

theorem sheds_child (cell : Cell) (child : CellId) :
    Sheds { cell with children := cell.children.filter (· ≠ child) } cell :=
  ⟨List.filter_sublist, .refl _, .refl _⟩

theorem sheds_output (cell : Cell) (id : WireId) :
    Sheds { cell with outputs := cell.outputs.filter (· ≠ id) } cell :=
  ⟨.refl _, List.filter_sublist, .refl _⟩

theorem sheds_input (cell : Cell) (id : WireId) :
    Sheds { cell with inputs := cell.inputs.filter (· ≠ id) } cell :=
  ⟨.refl _, .refl _, List.filter_sublist⟩

end Cell

namespace Circuit

open Edit Running

/-! ## What happens -/

/-- One thing that an action brings about. -/
inductive Event where
  | created (id : Id)
  /-- A cell has come to hang below a parent. -/
  | adopted (parent child : CellId)
  /-- A wire has come to start at a cell. -/
  | drawn (source : CellId) (wire : WireId)
  /-- A wire has come to end at a cell. -/
  | fed (target : CellId) (wire : WireId)
deriving DecidableEq, Repr

namespace Event

def created? : Event → Option Id
  | .created id => some id
  | _ => none

def adopted? (id : CellId) : Event → Option CellId
  | .adopted parent child => if parent = id then some child else none
  | _ => none

def drawn? (id : CellId) : Event → Option WireId
  | .drawn source wire => if source = id then some wire else none
  | _ => none

def fed? (id : CellId) : Event → Option WireId
  | .fed target wire => if target = id then some wire else none
  | _ => none

end Event

/-- Where something has been moved to, if it has been moved. -/
def movedTo (before after : Option CellId) : List CellId := if before = after then [] else after.toList

/-- What an action creates and attaches. An end of a wire is attached when the wire is created and when it is
moved there from another cell, even if the action fails after that. -/
def Action.events (validate : Bool) (action : Action) (c : Circuit) : List Event :=
  let d := action.perform validate c
  match action with
  | .createCell parent kind position =>
    match Circuit.createCell validate parent kind position c with
    | .ok id _ => [.created id, .adopted parent id]
    | .error _ _ => []
  | .createWire source target colour timing =>
    match Circuit.createWire validate source target colour timing c with
    | .ok id _ => [.created id, .drawn source id, .fed target id]
    | .error _ _ => []
  | .modifyCell id _ => (movedTo (c.parentOf id) (d.parentOf id)).map fun parent => .adopted parent id
  | .modifyWire id _ =>
    (movedTo (c.sourceOf id) (d.sourceOf id)).map (fun source => .drawn source id) ++
      (movedTo (c.targetOf id) (d.targetOf id)).map fun target => .fed target id
  | _ => []

/-- A circuit, and all that has happened to it so far. -/
structure Chronicle where
  circuit : Circuit
  events : List Event

namespace Chronicle

/-- The root is there from the start. -/
def initial : Chronicle := ⟨.initial, [.created CellId.root]⟩

def perform (chronicle : Chronicle) (validate : Bool) (action : Action) : Chronicle where
  circuit := action.perform validate chronicle.circuit
  events := chronicle.events ++ action.events validate chronicle.circuit

/-- What actions lead to, each of them validated or not. -/
def of (actions : List (Bool × Action)) : Chronicle :=
  actions.foldl (fun chronicle action => chronicle.perform action.1 action.2) initial

end Chronicle

/-! ## Every list is renewed -/

variable {c d e : Circuit} {events more : List Event}

/-- A list of a cell, which is empty if the cell is not there. -/
def listAt {α : Type} (c : Circuit) (list : Cell → List α) (id : CellId) : List α :=
  ((c.cell? id).map list).getD []

/-- What happened between two circuits says how each list has changed. -/
structure Records (c : Circuit) (events : List Event) (d : Circuit) : Prop where
  rows : Renewed c.live.keys (events.filterMap Event.created?) d.live.keys
  children : ∀ id, Renewed (c.listAt Cell.children id) (events.filterMap (Event.adopted? id))
    (d.listAt Cell.children id)
  outputs : ∀ id, Renewed (c.listAt Cell.outputs id) (events.filterMap (Event.drawn? id))
    (d.listAt Cell.outputs id)
  inputs : ∀ id, Renewed (c.listAt Cell.inputs id) (events.filterMap (Event.fed? id))
    (d.listAt Cell.inputs id)

section Lists

variable {α : Type} {list : Cell → List α} {id : CellId} {cell : Cell}

theorem listAt_eq (h : c.cell? id = some cell) : c.listAt list id = list cell := by
  rw [listAt, h]
  rfl

theorem listAt_of_absent (h : c.cell? id = none) : c.listAt list id = [] := by
  rw [listAt, h]
  rfl

theorem listAt_changeCell_of_ne {change : Cell → Cell} {x : CellId} (hne : x ≠ id) :
    (c.changeCell id change).listAt list x = c.listAt list x := by
  rw [listAt, cell?_changeCell, if_neg hne, listAt]

/-- A change that adds something new to a list of one cell renews the lists of all. -/
theorem renewed_listAt_push [DecidableEq α] (hcell : c.cell? id = some cell) {x : α} (hx : x ∉ list cell)
    {change : Cell → Cell} (hchange : list (change cell) = list cell ++ [x]) (other : CellId) :
    Renewed (c.listAt list other) (if id = other then [x] else []) ((c.changeCell id change).listAt list other) := by
  by_cases hid : id = other
  · subst hid
    have hafter : (c.changeCell id change).cell? id = some (change cell) := by
      rw [cell?_changeCell, if_pos rfl, hcell]
      rfl
    rw [if_pos rfl, listAt_eq hcell, listAt_eq hafter, hchange]
    exact .push (List.Sublist.refl _) hx
  · rw [if_neg hid, listAt_changeCell_of_ne (Ne.symm hid)]
    exact .refl _

/-- A change that leaves the lists of one cell alone leaves those of all cells alone. -/
theorem renewed_listAt_same [DecidableEq α] {change : Cell → Cell}
    (hchange : ∀ cell, list (change cell) = list cell) (other : CellId) :
    Renewed (c.listAt list other) [] ((c.changeCell id change).listAt list other) := by
  have hsame : (c.changeCell id change).listAt list other = c.listAt list other := by
    by_cases hid : other = id
    · subst hid
      rw [listAt, listAt, cell?_changeCell, if_pos rfl, Option.map_map]
      congr 2
      funext cell
      exact hchange cell
    · exact listAt_changeCell_of_ne hid
  rw [hsame]
  exact .refl _

end Lists

namespace Records

theorem trans (h : Records c events d) (h' : Records d more e) : Records c (events ++ more) e where
  rows := by
    rw [List.filterMap_append]
    exact h.rows.trans h'.rows
  children id := by
    rw [List.filterMap_append]
    exact (h.children id).trans (h'.children id)
  outputs id := by
    rw [List.filterMap_append]
    exact (h.outputs id).trans (h'.outputs id)
  inputs id := by
    rw [List.filterMap_append]
    exact (h.inputs id).trans (h'.inputs id)

/-! ## Nothing happens -/

/-- What is left of the rows stands where it stood, and what is left of the cells lists nothing new. -/
theorem of_cells (hrows : d.live.keys.Sublist c.live.keys)
    (hcells : ∀ {id cell}, d.cell? id = some cell → ∃ old, c.cell? id = some old ∧ cell.Sheds old) :
    Records c [] d := by
  have hlists : ∀ {α : Type} [DecidableEq α] {list : Cell → List α},
      (∀ {cell old}, Cell.Sheds cell old → (list cell).Sublist (list old)) →
      ∀ id, Renewed (c.listAt list id) [] (d.listAt list id) := by
    intro α _ list hlist id
    rw [renewed_nil_iff]
    cases hcell : d.cell? id with
    | none =>
      rw [listAt_of_absent hcell]
      exact List.nil_sublist _
    | some cell =>
      rcases hcells hcell with ⟨old, hold, hsheds⟩
      rw [listAt_eq hcell, listAt_eq hold]
      exact hlist hsheds
  exact ⟨renewed_nil_iff.mpr hrows, hlists (·.children), hlists (·.outputs), hlists (·.inputs)⟩

theorem of_live_eq (h : d.live = c.live) : Records c [] d := by
  refine of_cells (by rw [h]) fun {id cell} hcell => ⟨cell, ?_, .refl cell⟩
  rwa [cell?, h] at hcell

theorem refl (c : Circuit) : Records c [] c := of_live_eq rfl

theorem changeCell (c : Circuit) (id : CellId) {change : Cell → Cell}
    (h : ∀ cell, Cell.Sheds (change cell) cell) : Records c [] (c.changeCell id change) := by
  refine of_cells (by rw [keys_changeCell]) fun {x cell} hcell => ?_
  rw [cell?_changeCell_eq_map] at hcell
  rcases Option.map_eq_some_iff.mp hcell with ⟨old, hold, rfl⟩
  refine ⟨old, hold, ?_⟩
  split
  · exact h old
  · exact .refl old

theorem changeWire (c : Circuit) (id : WireId) (change : Wire → Wire) : Records c [] (c.changeWire id change) := by
  refine of_cells ?_ fun {x cell} hcell => ⟨cell, by rwa [cell?_changeWire] at hcell, .refl cell⟩
  unfold Circuit.changeWire
  split
  · rw [Table.keys_update]
  · exact .refl _

theorem withoutTags (c : Circuit) : Records c [] c.withoutTags := by
  have hmap : c.withoutTags = c.mapCells fun cell => { cell with tags := [] } := rfl
  refine of_cells ?_ fun {x cell} hcell => ?_
  · rw [hmap, mapCells, Table.keys_map]
  · rw [hmap, cell?_mapCells] at hcell
    rcases Option.map_eq_some_iff.mp hcell with ⟨old, hold, rfl⟩
    exact ⟨old, hold, .refl _, .refl _, .refl _⟩

theorem retired (c : Circuit) (removal : Removal) (id : Id) : Records c [] (c.retired removal id) := by
  refine of_cells ?_ fun {x cell} hcell => ⟨cell, ?_, .refl cell⟩
  · rw [keys_retired]
    exact List.filter_sublist
  · rw [cell?_eq_some_iff, get?_retired] at hcell
    split at hcell
    · cases hcell
    · exact cell?_eq_some_iff.mpr hcell

theorem dropWire (c : Circuit) (removal : Removal) (id : WireId) : Records c [] (c.dropWire removal id) := by
  cases hwire : c.wire? id with
  | none =>
    rw [dropWire_of_absent removal hwire]
    exact refl c
  | some wire =>
    rw [dropWire_eq removal hwire]
    have hdetached : Records c [] (c.detached id wire) :=
      (changeCell c wire.source fun cell => cell.sheds_output id).trans
        (changeCell _ wire.target fun cell => cell.sheds_input id)
    exact hdetached.trans (retired _ removal id)

theorem dropWires (c : Circuit) (removal : Removal) (ids : List WireId) :
    Records c [] (c.dropWires removal ids) := by
  induction ids generalizing c with
  | nil => exact refl c
  | cons id ids ih => exact (dropWire c removal id).trans (ih _)

theorem dropAll (c : Circuit) (removal : Removal) (ids : List CellId) : Records c [] (c.dropAll removal ids) := by
  induction ids generalizing c with
  | nil => exact refl c
  | cons id ids ih => exact (retired c removal id).trans (ih _)

theorem prune (c : Circuit) (removal : Removal) (id : CellId) (going : Cascade) :
    Records c [] (c.prune removal id going) :=
  ((dropWires c removal going.wires).trans
    (changeCell _ going.parent fun cell => cell.sheds_child id)).trans (dropAll _ removal going.cells)

/-! ## Something happens -/

/-- A new row is put behind all others. If it is a cell, it lists nothing. -/
theorem put {id : Id} {row : Row} (hnew : c.live.get? id = none)
    (hbare : ∀ {cell}, row = .cell cell → cell.children = [] ∧ cell.outputs = [] ∧ cell.inputs = []) :
    Records c [.created id] (c.put id row) := by
  have habsent : id ∉ c.live.keys := Table.get?_eq_none_iff.mp hnew
  have hlists : ∀ {α : Type} [DecidableEq α] {list : Cell → List α},
      (∀ {cell}, row = .cell cell → list cell = []) →
      ∀ x, Renewed (c.listAt list x) [] ((c.put id row).listAt list x) := by
    intro α _ list hlist x
    rw [renewed_nil_iff]
    by_cases hx : x.toId = id
    · have hnone : (c.put id row).listAt list x = [] := by
        rw [listAt, cell?, get?_put, if_pos hx]
        rcases row with cell | wire
        · exact hlist rfl
        · rfl
      rw [hnone]
      exact List.nil_sublist _
    · rw [listAt, cell?_put_of_ne c row hx, listAt]
  refine ⟨?_, hlists fun h => (hbare h).1, hlists fun h => (hbare h).2.1, hlists fun h => (hbare h).2.2⟩
  have hkeys : (c.put id row).live.keys = c.live.keys ++ [id] := Table.keys_insert_of_not_mem row habsent
  rw [hkeys]
  exact .push (.refl _) habsent

/-- A cell is put last among the children of another one. -/
theorem adopt {parent child : CellId} {above : Cell} (habove : c.cell? parent = some above)
    (hnew : child ∉ above.children) :
    Records c [.adopted parent child]
      (c.changeCell parent fun cell => { cell with children := cell.children ++ [child] }) where
  rows := renewed_nil_iff.mpr (by rw [keys_changeCell])
  children id := by
    have hevents : [Event.adopted parent child].filterMap (Event.adopted? id) =
        if parent = id then [child] else [] := by
      by_cases hid : parent = id <;> simp [Event.adopted?, hid]
    rw [hevents]
    exact renewed_listAt_push habove hnew rfl id
  outputs := renewed_listAt_same fun _ => rfl
  inputs := renewed_listAt_same fun _ => rfl

/-- A wire is put last among the outputs of a cell. -/
theorem draw {source : CellId} {wire : WireId} {left : Cell} (hleft : c.cell? source = some left)
    (hnew : wire ∉ left.outputs) :
    Records c [.drawn source wire]
      (c.changeCell source fun cell => { cell with outputs := cell.outputs ++ [wire] }) where
  rows := renewed_nil_iff.mpr (by rw [keys_changeCell])
  children := renewed_listAt_same fun _ => rfl
  outputs id := by
    have hevents : [Event.drawn source wire].filterMap (Event.drawn? id) =
        if source = id then [wire] else [] := by
      by_cases hid : source = id <;> simp [Event.drawn?, hid]
    rw [hevents]
    exact renewed_listAt_push hleft hnew rfl id
  inputs := renewed_listAt_same fun _ => rfl

/-- A wire is put last among the inputs of a cell. -/
theorem feed {target : CellId} {wire : WireId} {reached : Cell} (hreached : c.cell? target = some reached)
    (hnew : wire ∉ reached.inputs) :
    Records c [.fed target wire]
      (c.changeCell target fun cell => { cell with inputs := cell.inputs ++ [wire] }) where
  rows := renewed_nil_iff.mpr (by rw [keys_changeCell])
  children := renewed_listAt_same fun _ => rfl
  outputs := renewed_listAt_same fun _ => rfl
  inputs id := by
    have hevents : [Event.fed target wire].filterMap (Event.fed? id) =
        if target = id then [wire] else [] := by
      by_cases hid : target = id <;> simp [Event.fed?, hid]
    rw [hevents]
    exact renewed_listAt_push hreached hnew rfl id

end Records

/-! ## New rows and moved links -/

namespace Linked

theorem records_addCell (h : c.Linked) {id parent : CellId} {above : Cell} (hnew : c.live.get? id = none)
    (habove : c.cell? parent = some above) (kind : CellKind) (position : Position) :
    Records c [.created id, .adopted parent id]
      ((c.put id (.cell (.fresh id (some parent) kind position))).changeCell parent fun cell =>
        { cell with children := cell.children ++ [id] }) := by
  have hne : parent.toId ≠ id.toId := by
    intro heq
    rw [cell?_eq_some_iff, heq, hnew] at habove
    cases habove
  have hlisted : id ∉ above.children := by
    intro hmem
    rcases h.toWellLinked.child_live _ _ _ (cell_ok_iff.mpr habove) hmem with ⟨below, hbelow⟩
    rw [cell_eq_ok_iff, hnew] at hbelow
    cases hbelow
  have hput : Records c [.created id] (c.put id (.cell (.fresh id (some parent) kind position))) := by
    refine .put hnew ?_
    rintro cell ⟨⟩
    exact ⟨rfl, rfl, rfl⟩
  have habove' : (c.put id (.cell (.fresh id (some parent) kind position))).cell? parent = some above :=
    (cell?_put_of_ne c _ hne).trans habove
  exact hput.trans (.adopt habove' hlisted)

theorem records_addWire (h : c.Linked) (wire : Wire) (hnew : c.live.get? wire.id = none)
    {source target : Cell} (hsource : c.cell? wire.source = some source)
    (htarget : c.cell? wire.target = some target) :
    Records c [.created wire.id, .drawn wire.source wire.id, .fed wire.target wire.id]
      (((c.put wire.id (.wire wire)).changeCell wire.source fun cell =>
        { cell with outputs := cell.outputs ++ [wire.id] }).changeCell wire.target fun cell =>
        { cell with inputs := cell.inputs ++ [wire.id] }) := by
  have hcells := cell?_put_wire hnew wire
  have hput : Records c [.created wire.id] (c.put wire.id (.wire wire)) := .put hnew (by rintro cell ⟨⟩)
  have hout : wire.id ∉ source.outputs := by
    intro hmem
    rcases (h.toWellLinked.mem_outputs_iff _ _ _ (cell_ok_iff.mpr hsource)).mp hmem with ⟨other, hother, -⟩
    rw [wire_eq_ok_iff, hnew] at hother
    cases hother
  have hin : wire.id ∉ target.inputs := by
    intro hmem
    rcases (h.toWellLinked.mem_inputs_iff _ _ _ (cell_ok_iff.mpr htarget)).mp hmem with ⟨other, hother, -⟩
    rw [wire_eq_ok_iff, hnew] at hother
    cases hother
  have hdraw := Records.draw ((hcells wire.source).trans hsource) hout
  -- for a loop the outputs of the target have just grown, its inputs have not
  have hreached : ∃ reached, ((c.put wire.id (.wire wire)).changeCell wire.source fun cell =>
      { cell with outputs := cell.outputs ++ [wire.id] }).cell? wire.target = some reached ∧
      reached.inputs = target.inputs := by
    rw [cell?_changeCell_eq_map, hcells, htarget]
    refine ⟨_, rfl, ?_⟩
    split
    · rfl
    · rfl
  rcases hreached with ⟨reached, hreached, hinputs⟩
  exact (hput.trans hdraw).trans (.feed hreached (by rwa [hinputs]))

theorem records_cellMoved (h : c.Linked) {id old parent : CellId} {below : Cell}
    (hup : c.parentOf id = some old) (hparent : c.cell? parent = some below) (hne : old ≠ parent) :
    Records c [.adopted parent id] (c.cellMoved id old parent) := by
  have hleft : (c.changeCell old fun cell =>
      { cell with children := cell.children.filter (· ≠ id) }).cell? parent = some below := by
    rw [cell?_changeCell, if_neg (Ne.symm hne), hparent]
  have hlisted : id ∉ below.children := by
    intro hmem
    rw [h.tree.links.target_of_mem (childrenOf_eq hparent) hmem] at hup
    exact hne (Option.some.inj hup).symm
  have hadopted := (Records.changeCell c old fun cell => cell.sheds_child id).trans (.adopt hleft hlisted)
  exact hadopted.trans (.changeCell _ id fun cell => ⟨.refl _, .refl _, .refl _⟩)

theorem records_sourceMoved (h : c.Linked) {id : WireId} {wire : Wire} (hwire : c.wire? id = some wire)
    {new : CellId} {reached : Cell} (hreached : c.cell? new = some reached) (hne : wire.source ≠ new) :
    Records c [.drawn new id] (c.sourceMoved id wire.source new) := by
  have hleft : (c.changeCell wire.source fun cell =>
      { cell with outputs := cell.outputs.filter (· ≠ id) }).cell? new = some reached := by
    rw [cell?_changeCell, if_neg (Ne.symm hne), hreached]
  have hlisted : id ∉ reached.outputs := by
    intro hmem
    have hsource := h.sources.target_of_mem (outputsOf_eq hreached) hmem
    rw [sourceOf_eq hwire] at hsource
    exact hne (Option.some.inj hsource)
  have hdrawn := (Records.changeCell c wire.source fun cell => cell.sheds_output id).trans (.draw hleft hlisted)
  exact hdrawn.trans (.changeWire _ id _)

theorem records_targetMoved (h : c.Linked) {id : WireId} {wire : Wire} (hwire : c.wire? id = some wire)
    {new : CellId} {reached : Cell} (hreached : c.cell? new = some reached) (hne : wire.target ≠ new) :
    Records c [.fed new id] (c.targetMoved id wire.target new) := by
  have hleft : (c.changeCell wire.target fun cell =>
      { cell with inputs := cell.inputs.filter (· ≠ id) }).cell? new = some reached := by
    rw [cell?_changeCell, if_neg (Ne.symm hne), hreached]
  have hlisted : id ∉ reached.inputs := by
    intro hmem
    have htarget := h.targets.target_of_mem (inputsOf_eq hreached) hmem
    rw [targetOf_eq hwire] at htarget
    exact hne (Option.some.inj htarget)
  have hfed := (Records.changeCell c wire.target fun cell => cell.sheds_input id).trans (.feed hleft hlisted)
  exact hfed.trans (.changeWire _ id _)

end Linked

/-! ## Actions -/

theorem movedTo_self (x : Option CellId) : movedTo x x = [] := if_pos rfl

theorem movedTo_of_ne {x y : CellId} (h : x ≠ y) : movedTo (some x) (some y) = [y] := if_neg (by simpa using h)

namespace Sound

theorem records_createCell (h : c.Sound) (validate : Bool) (parent : CellId) (kind : CellKind)
    (position : Position) :
    Records c ((Action.createCell parent kind position).events validate c)
      ((Action.createCell parent kind position).perform validate c) := by
  cases hparent : c.cell parent with
  | error fault =>
    have hrun : Circuit.createCell validate parent kind position c = .error fault c :=
      bind_of_error (ask_of_error hparent) _
    simp only [Action.events, Action.perform, hrun, final_of_error hrun]
    exact .refl c
  | ok above =>
    have habove := cell_ok_iff.mp hparent
    have hrun := Sound.run_of_validated (h.createCell validate parent kind position)
      (createCell_run habove validate kind position)
    simp only [Action.events, Action.perform, hrun, final_of_ok hrun]
    have hlinked : Linked { c with ids := c.ids.takeCell.2 } := h.linked.of_live_eq rfl
    have hnew : c.live.get? c.ids.takeCell.1 = none := by
      simpa [Table.contains] using (h.owned.absent_of_hands h.owned.pool.takeCell.2).1
    have hids : Records c [] { c with ids := c.ids.takeCell.2 } := .of_live_eq rfl
    exact hids.trans (hlinked.records_addCell hnew habove kind position)

theorem records_createWire (h : c.Sound) (validate : Bool) (source target : CellId) (colour : ColourFilter)
    (timing : Timing) :
    Records c ((Action.createWire source target colour timing).events validate c)
      ((Action.createWire source target colour timing).perform validate c) := by
  have hfails : ∀ {fault}, Circuit.createWire validate source target colour timing c = .error fault c →
      Records c ((Action.createWire source target colour timing).events validate c)
        ((Action.createWire source target colour timing).perform validate c) := by
    intro fault hrun
    simp only [Action.events, Action.perform, hrun, final_of_error hrun]
    exact .refl c
  cases hsource : c.cell source with
  | error fault => exact hfails (bind_of_error (ask_of_error hsource) _)
  | ok left =>
    cases htarget : c.cell target with
    | error fault =>
      refine @hfails fault ?_
      rw [Circuit.createWire, bind_of_ok (ask_of_ok hsource), bind_of_error (ask_of_error htarget)]
    | ok reached =>
      have hleft := cell_ok_iff.mp hsource
      have hreached := cell_ok_iff.mp htarget
      have hrun := Sound.run_of_validated (h.createWire validate source target colour timing)
        (createWire_run h.owned hleft hreached validate colour timing)
      simp only [Action.events, Action.perform, hrun, final_of_ok hrun]
      have hlinked : Linked { c with ids := c.ids.takeWire.2 } := h.linked.of_live_eq rfl
      have hnew : c.live.get? c.ids.takeWire.1 = none := by
        simpa [Table.contains] using (h.owned.absent_of_hands h.owned.pool.takeWire.2).1
      have hids : Records c [] { c with ids := c.ids.takeWire.2 } := .of_live_eq rfl
      exact hids.trans
        (hlinked.records_addWire ⟨c.ids.takeWire.1, source, target, colour, timing⟩ hnew hleft hreached)

theorem records_setPulse (c : Circuit) (validate : Bool) (id : CellId) (colour : Colour) (pulse : Option Pulse) :
    Records c [] ((Circuit.setPulse validate id colour pulse).final c) := by
  rw [Circuit.setPulse, final_onCell_validated]
  exact .changeCell c id fun cell => ⟨.refl _, .refl _, .refl _⟩

theorem records_tagCell (c : Circuit) (validate : Bool) (id : CellId) (tag : CellTag) :
    Records c [] ((Circuit.tagCell validate id tag).final c) := by
  rw [Circuit.tagCell, final_onCell_validated]
  exact .changeCell c id fun cell => ⟨.refl _, .refl _, .refl _⟩

/-- A cell that is to be changed stays as it is, for a fault, or it is changed where it is, or moved before that. -/
theorem final_modifyCell (h : c.Sound) (validate : Bool) (id : CellId) (patch : CellPatch) :
    (Circuit.modifyCell validate id patch).final c = c ∨
      (Circuit.modifyCell validate id patch).final c = c.changeCell id (·.restyle patch) ∨
      ∃ old parent below, c.parentOf id = some old ∧ c.cell? parent = some below ∧ old ≠ parent ∧
        (Circuit.modifyCell validate id patch).final c =
          (c.cellMoved id old parent).changeCell id (·.restyle patch) := by
  have hrest : ∀ {parents d}, Circuit.reparent? id patch.parent c = .ok parents d →
      (Circuit.modifyCell validate id patch).final c = d.changeCell id (·.restyle patch) := by
    intro parents d hrun
    rw [Circuit.modifyCell, final_bind_of_ok hrun, final_onCell_validated]
  cases hpatch : patch.parent with
  | none => exact .inr (.inl (hrest (by rw [hpatch]; rfl)))
  | some parent =>
    have hmove : Circuit.reparent? id patch.parent =
        Circuit.reparent id parent >>= fun old => pure [old.toId, parent.toId] := by
      rw [hpatch]
      rfl
    rcases reparent_run h.linked id parent with ⟨fault, hrun⟩ | hrun |
      ⟨old, above, below, hup, -, hparent, hne, -, hrun⟩
    · left
      rw [Circuit.modifyCell, hmove]
      exact final_bind_of_error (bind_of_error hrun _) _
    · have hstays : Circuit.reparent? id patch.parent c = .ok [parent.toId, parent.toId] c := by
        rw [hmove]
        exact bind_of_ok hrun _
      exact .inr (.inl (hrest hstays))
    · have hmoves : Circuit.reparent? id patch.parent c = .ok [old.toId, parent.toId] (c.cellMoved id old parent) := by
        rw [hmove]
        exact bind_of_ok hrun _
      exact .inr (.inr ⟨old, parent, below, hup, hparent, hne, hrest hmoves⟩)

theorem records_modifyCell (h : c.Sound) (validate : Bool) (id : CellId) (patch : CellPatch) :
    Records c ((Action.modifyCell id patch).events validate c)
      ((Action.modifyCell id patch).perform validate c) := by
  have hrestyled : ∀ d : Circuit, Records d [] (d.changeCell id (·.restyle patch)) := fun d =>
    .changeCell d id fun cell => (Cell.sameLinks_restyle patch cell).sheds
  have hparents : ∀ d : Circuit, (d.changeCell id (·.restyle patch)).parentOf = d.parentOf := fun d =>
    ofCells_changeCell_same id fun _ => rfl
  simp only [Action.events, Action.perform]
  rcases h.final_modifyCell validate id patch with hsame | hchanged |
    ⟨old, parent, below, hup, hparent, hne, hmoved⟩
  · rw [hsame, movedTo_self]
    exact .refl c
  · rw [hchanged, hparents, movedTo_self]
    exact hrestyled c
  · have hto : movedTo (c.parentOf id) ((c.cellMoved id old parent).parentOf id) = [parent] := by
      rw [parentOf_cellMoved (cell?_of_ofCells hup), Function.update_self, hup, movedTo_of_ne hne]
    rw [hmoved, hparents, hto]
    exact (h.linked.records_cellMoved hup hparent hne).trans (hrestyled _)

/-- What happens to the target of a wire, and then to the rest of it, leaves its source alone. -/
theorem records_moveTarget (h : c.Sound) (validate : Bool) {id : WireId} {wire : Wire}
    (hwire : c.wire? id = some wire) (patch : WirePatch) (touched : List Id → List Id) :
    let d := (Circuit.moveTarget id wire.target patch.target >>= fun targets =>
      onWire id (·.restyle patch) >>= fun _ => validated validate (touched targets)).final c
    d.sourceOf id = c.sourceOf id ∧
      Records c ((movedTo (c.targetOf id) (d.targetOf id)).map fun target => .fed target id) d := by
  intro d
  have hends : ∀ e : Circuit, (e.changeWire id (·.restyle patch)).sourceOf = e.sourceOf ∧
      (e.changeWire id (·.restyle patch)).targetOf = e.targetOf := fun e =>
    ⟨ofWires_changeWire_same id fun _ => rfl, ofWires_changeWire_same id fun _ => rfl⟩
  rcases moveTarget_run h.linked hwire patch.target with ⟨new, fault, -, -, -, hrun⟩ | ⟨targets, -, hrun⟩ |
    ⟨new, left, reached, -, -, hreached, hne, hrun⟩
  · have hd : d = c := final_bind_of_error hrun _
    rw [hd, movedTo_self]
    exact ⟨rfl, .refl c⟩
  · have hd : d = c.changeWire id (·.restyle patch) := by
      rw [← final_onWire_validated id (·.restyle patch) validate (touched targets)]
      exact final_bind_of_ok hrun _
    rw [hd, (hends c).1, (hends c).2, movedTo_self]
    exact ⟨rfl, .changeWire c id _⟩
  · have hd : d = (c.targetMoved id wire.target new).changeWire id (·.restyle patch) := by
      rw [← final_onWire_validated id (·.restyle patch) validate (touched [wire.target, new])]
      exact final_bind_of_ok hrun _
    have hmoved := wire?_targetMoved hwire wire.target new
    rw [hd, (hends _).1, (hends _).2, targetOf_eq hwire, targetOf_eq hmoved, movedTo_of_ne hne, sourceOf_eq hwire,
      sourceOf_eq hmoved]
    exact ⟨rfl, (h.linked.records_targetMoved hwire hreached hne).trans (.changeWire _ id _)⟩

theorem records_modifyWire (h : c.Sound) (validate : Bool) (id : WireId) (patch : WirePatch) :
    Records c ((Action.modifyWire id patch).events validate c)
      ((Action.modifyWire id patch).perform validate c) := by
  simp only [Action.events, Action.perform]
  cases hask : c.wire id with
  | error fault =>
    have hsame : (Circuit.modifyWire validate id patch).final c = c := by
      rw [Circuit.modifyWire, final_bind_of_error (ask_of_error hask)]
    rw [hsame, movedTo_self, movedTo_self]
    exact .refl c
  | ok wire =>
    have hwire := wire_ok_iff.mp hask
    rcases moveSource_run h.linked hwire patch.source with ⟨new, fault, -, -, -, hrun⟩ | ⟨sources, -, hrun⟩ |
      ⟨new, left, reached, -, hleft, hreached, hne, hrun⟩
    · have hsame : (Circuit.modifyWire validate id patch).final c = c := by
        rw [Circuit.modifyWire, final_bind_of_ok (ask_of_ok hask)]
        exact final_bind_of_error hrun _
      rw [hsame, movedTo_self, movedTo_self]
      exact .refl c
    · rw [Circuit.modifyWire, final_bind_of_ok (ask_of_ok hask), final_bind_of_ok hrun]
      rcases h.records_moveTarget validate hwire patch fun targets => id.toId :: (sources ++ targets) with
        ⟨hsource, hrecords⟩
      rw [hsource, movedTo_self]
      exact hrecords
    · -- from here on the source has been moved, even if the target is missing
      have hmoved : (c.sourceMoved id wire.source new).Sound := by
        have hsound := (h.moveSource hwire patch.source).1
        rwa [final_of_ok hrun] at hsound
      have hwire' := wire?_sourceMoved hwire wire.source new
      rw [Circuit.modifyWire, final_bind_of_ok (ask_of_ok hask), final_bind_of_ok hrun]
      rcases hmoved.records_moveTarget validate hwire' patch fun targets =>
        id.toId :: ([wire.source.toId, new.toId] ++ targets) with ⟨hsource, hrecords⟩
      rw [targetOf_eq hwire'] at hrecords
      rw [hsource, sourceOf_eq hwire', sourceOf_eq hwire, targetOf_eq hwire, movedTo_of_ne hne]
      exact (h.linked.records_sourceMoved hwire hreached hne).trans hrecords

theorem records_removeWire (h : c.Sound) (validate : Bool) (removal : Removal) (id : WireId) :
    Records c [] ((Circuit.removeWire validate removal id).final c) := by
  cases hask : c.wire id with
  | error fault =>
    rw [final_of_error (removeWire_of_error validate removal hask)]
    exact .refl c
  | ok wire =>
    rw [final_of_run (removeWire_of_live h.linked validate removal (wire_ok_iff.mp hask)), final_validated]
    exact .dropWire c removal id

theorem records_removeCell (h : c.Sound) (validate : Bool) (removal : Removal) (id : CellId) :
    Records c [] ((Circuit.removeCell validate removal id).final c) := by
  cases hcascade : c.cascade id with
  | error fault =>
    rw [final_of_error (removeCell_of_error validate removal hcascade)]
    exact .refl c
  | ok going =>
    rcases removeCell_of_ok h validate removal hcascade with ⟨touched, hrun⟩
    rw [final_of_run hrun, final_validated]
    exact .prune c removal id going

/-- Every action changes lists by what it brings about, and by what it takes out of them. -/
theorem records (h : c.Sound) (validate : Bool) (action : Action) :
    Records c (action.events validate c) (action.perform validate c) := by
  cases action with
  | createCell parent kind position => exact h.records_createCell validate parent kind position
  | createWire source target colour timing => exact h.records_createWire validate source target colour timing
  | fireCell id colour => exact records_setPulse c validate id colour (some .raw)
  | fire id colour pulse => exact records_setPulse c validate id colour (some pulse)
  | clearFire id colour => exact records_setPulse c validate id colour none
  | tagCell id tag => exact records_tagCell c validate id tag
  | clearTags => exact .withoutTags c
  | modifyCell id patch => exact h.records_modifyCell validate id patch
  | modifyWire id patch => exact h.records_modifyWire validate id patch
  | deleteCell id => exact h.records_removeCell validate .delete id
  | archiveCell id => exact h.records_removeCell validate .archive id
  | deleteWire id => exact h.records_removeWire validate .delete id
  | archiveWire id => exact h.records_removeWire validate .archive id
  | purge => exact .of_live_eq rfl

end Sound

/-! ## Chronicles -/

/-- No rows at all. -/
def vacant : Circuit := ⟨.empty, .empty, .empty⟩

namespace Chronicle

theorem records_initial : Records vacant initial.events initial.circuit := by
  have hput : Records vacant [.created CellId.root]
      (vacant.put CellId.root (.cell (.fresh .root none .relay .origin))) := by
    refine .put rfl ?_
    rintro cell ⟨⟩
    exact ⟨rfl, rfl, rfl⟩
  exact hput.trans (.of_live_eq rfl)

/-- The lists of a circuit come from its chronicle. -/
theorem records (actions : List (Bool × Action)) :
    (of actions).circuit.Sound ∧ Records vacant (of actions).events (of actions).circuit := by
  have hsteps : ∀ {chronicle : Chronicle}, chronicle.circuit.Sound →
      Records vacant chronicle.events chronicle.circuit →
      let last := actions.foldl (fun chronicle action => chronicle.perform action.1 action.2) chronicle
      last.circuit.Sound ∧ Records vacant last.events last.circuit := by
    induction actions with
    | nil =>
      intro chronicle hsound hrecords
      exact ⟨hsound, hrecords⟩
    | cons action actions ih =>
      intro chronicle hsound hrecords
      exact ih (hsound.perform action.1 action.2) (hrecords.trans (hsound.records action.1 action.2))
  exact hsteps sound_initial records_initial

/-- Chronicles lead to the reachable circuits. -/
theorem reachable_iff {c : Circuit} : Reachable c ↔ ∃ actions, (of actions).circuit = c := by
  constructor
  · intro h
    induction h with
    | initial => exact ⟨[], rfl⟩
    | step _ validate action ih =>
      rcases ih with ⟨actions, rfl⟩
      refine ⟨actions ++ [(validate, action)], ?_⟩
      rw [of, List.foldl_append]
      rfl
  · rintro ⟨actions, rfl⟩
    have hsteps : ∀ {chronicle : Chronicle}, Reachable chronicle.circuit →
        Reachable (actions.foldl (fun chronicle action => chronicle.perform action.1 action.2) chronicle).circuit := by
      induction actions with
      | nil => exact fun h => h
      | cons action actions ih => exact fun h => ih (h.step action.1 action.2)
    exact hsteps .initial

end Chronicle

/-- The rows that a look-up finds lie under the ids they carry. -/
theorem Keyed.map_rows (h : c.Keyed) {α : Type} {pick : Row → Option α} {idOf : α → Id} {look : Id → Option α}
    (hlook : ∀ {id row}, c.live.get? id = some row → look id = pick row)
    (hid : ∀ {row a}, pick row = some a → idOf a = row.id) :
    (c.live.values.filterMap pick).map idOf = c.live.keys.filter fun id => (look id).isSome := by
  have hrows : ∀ row ∈ c.live.rows, look row.1 = pick row.2 ∧ row.2.id = row.1 := fun row hrow =>
    ⟨hlook (Table.get?_eq_some_iff.mpr hrow), h (Table.get?_eq_some_iff.mpr hrow)⟩
  rw [Table.values, Table.keys]
  generalize c.live.rows = rows at hrows
  induction rows with
  | nil => rfl
  | cons row rows ih =>
    rcases hrows row List.mem_cons_self with ⟨hfound, hkey⟩
    have hrest := ih fun row hrow => hrows row (List.mem_cons_of_mem _ hrow)
    rw [List.map_cons, List.map_cons]
    cases hpick : pick row.2 with
    | none =>
      rw [List.filterMap_cons_none hpick, List.filter_cons_of_neg (by simp [hfound, hpick]), hrest]
    | some a =>
      rw [List.filterMap_cons_some hpick, List.filter_cons_of_pos (by simp [hfound, hpick]), List.map_cons, hrest,
        hid hpick, hkey]

theorem Keyed.map_cells (h : c.Keyed) :
    c.cells.map (·.id.toId) = c.live.keys.filter fun id => (c.cell? ⟨id.raw⟩).isSome := by
  refine h.map_rows (fun {id row} hrow => ?_) fun {row cell} hpick => ?_
  · have hget : c.live.get? (CellId.toId ⟨id.raw⟩) = some row := hrow
    rw [cell?, hget]
    cases row <;> rfl
  · rcases row with found | wire
    · rw [← Option.some.inj hpick]
      rfl
    · cases hpick

theorem Keyed.map_wires (h : c.Keyed) :
    c.wires.map (·.id.toId) = c.live.keys.filter fun id => (c.wire? ⟨id.raw⟩).isSome := by
  refine h.map_rows (fun {id row} hrow => ?_) fun {row wire} hpick => ?_
  · have hget : c.live.get? (WireId.toId ⟨id.raw⟩) = some row := hrow
    rw [wire?, hget]
    cases row <;> rfl
  · rcases row with cell | found
    · cases hpick
    · rw [← Option.some.inj hpick]
      rfl

namespace Chronicle

/-- Every list is what is read off the chronicle: each thing that is still there, where it came last. -/
structure InOrder (chronicle : Chronicle) : Prop where
  cells : chronicle.circuit.cells.map (·.id.toId) = (chronicle.events.filterMap Event.created?).dedup.filter
    fun id => (chronicle.circuit.cell? ⟨id.raw⟩).isSome
  wires : chronicle.circuit.wires.map (·.id.toId) = (chronicle.events.filterMap Event.created?).dedup.filter
    fun id => (chronicle.circuit.wire? ⟨id.raw⟩).isSome
  children : ∀ id cell, chronicle.circuit.cell id = .ok cell → cell.children =
    (chronicle.events.filterMap (Event.adopted? id)).dedup.filter
      fun child => chronicle.circuit.parentOf child = some id
  outputs : ∀ id cell, chronicle.circuit.cell id = .ok cell → cell.outputs =
    (chronicle.events.filterMap (Event.drawn? id)).dedup.filter
      fun wire => chronicle.circuit.sourceOf wire = some id
  inputs : ∀ id cell, chronicle.circuit.cell id = .ok cell → cell.inputs =
    (chronicle.events.filterMap (Event.fed? id)).dedup.filter
      fun wire => chronicle.circuit.targetOf wire = some id

/-- What a chronicle says of the lists of its circuit. -/
theorem inOrder_of (actions : List (Bool × Action)) : (of actions).InOrder := by
  rcases records actions with ⟨hsound, hrecords⟩
  have hlinked := hsound.linked
  have hrows := hrecords.rows.eq_filter fun id => Iff.rfl
  have hkept : ∀ {found : Id → Bool}, (∀ id, found id = true → id ∈ (of actions).circuit.live.keys) →
      (of actions).circuit.live.keys.filter found =
        ((of actions).events.filterMap Event.created?).dedup.filter found := by
    intro found hfound
    rw [hrows, List.filter_filter]
    refine List.filter_congr fun id _ => ?_
    cases hid : found id with
    | false => rfl
    | true => simpa using hfound id hid
  constructor
  · rw [hlinked.keyed.map_cells]
    refine hkept fun id hid => ?_
    rcases Option.isSome_iff_exists.mp hid with ⟨cell, hcell⟩
    exact mem_keys_of_cell? hcell
  · rw [hlinked.keyed.map_wires]
    refine hkept fun id hid => ?_
    rcases Option.isSome_iff_exists.mp hid with ⟨wire, hwire⟩
    exact mem_keys_of_wire? hwire
  · intro id cell hcell
    have hlisted := childrenOf_eq (cell_ok_iff.mp hcell)
    have hchildren := hrecords.children id
    rw [listAt_eq (cell_ok_iff.mp hcell)] at hchildren
    exact hchildren.eq_filter fun child =>
      ⟨hlinked.tree.links.target_of_mem hlisted, hlinked.tree.links.mem_of_target hlisted⟩
  · intro id cell hcell
    have hlisted := outputsOf_eq (cell_ok_iff.mp hcell)
    have houtputs := hrecords.outputs id
    rw [listAt_eq (cell_ok_iff.mp hcell)] at houtputs
    exact houtputs.eq_filter fun wire =>
      ⟨hlinked.sources.target_of_mem hlisted, hlinked.sources.mem_of_target hlisted⟩
  · intro id cell hcell
    have hlisted := inputsOf_eq (cell_ok_iff.mp hcell)
    have hinputs := hrecords.inputs id
    rw [listAt_eq (cell_ok_iff.mp hcell)] at hinputs
    exact hinputs.eq_filter fun wire =>
      ⟨hlinked.targets.target_of_mem hlisted, hlinked.targets.mem_of_target hlisted⟩

/-- Every reachable circuit has a chronicle. Whatever the actions in it, be it that they remove rows, purge them and
use their ids again: cells and wires are listed in the order in which they were created last, and each cell lists
its children, outputs and inputs in the order in which they were last attached to it. -/
theorem in_order :
    (∀ c, Reachable c ↔ ∃ actions, (of actions).circuit = c) ∧ ∀ actions, (of actions).InOrder :=
  ⟨fun _ => reachable_iff, inOrder_of⟩

/-- An id that is used again comes last, and so does a wire that has come back. -/
example :
    let actions : List Action :=
      [.createCell .root .relay .origin, .createCell .root .relay .origin, .createWire ⟨1⟩ ⟨2⟩ .any .now,
        .createWire .root ⟨2⟩ .any .now, .modifyWire ⟨-1⟩ { WirePatch.empty with target := some .root },
        .modifyWire ⟨-1⟩ { WirePatch.empty with target := some ⟨2⟩ }, .deleteCell ⟨1⟩,
        .createCell ⟨2⟩ .slot .origin, .createWire ⟨1⟩ ⟨2⟩ .any .now]
    let c := (of (actions.map (true, ·))).circuit
    c.cells.map (·.id.raw) = [0, 2, 1] ∧ (c.cell? ⟨2⟩).map (·.inputs.map (·.raw)) = some [-2, -1] := by
  decide

end Chronicle

end Circuit

end PulseCircuit
