import PulseCircuit.Proofs.Faults
import PulseCircuit.Proofs.Reachable
import PulseCircuit.Topology

/-!
# Cells in a row

A chain is built one cell and one wire at a time. All that pulses see of it is the look of each cell and that
each cell but the first is fed by the one before. This is kept apart from how the rows of the circuit lie, so
it can be said of a chain that was fired, or that some beats have changed, as well.

* `Circuit.Laid`: there is nothing but a row of cells below the root, and what each of them looks like;
* `Laid.changeCell`: a cell can be changed in its place;
* `CellAdded`, `WireAdded`: what a circuit looks like with one more cell or one more wire;
* `Topology.chain_run`: any chain can be built, and is such a row;
* `Topology.fire_run`: any cell of a row can be fired.
-/

namespace PulseCircuit

/-- What pulses see of a cell. -/
structure Look where
  kind : CellKind
  position : Position
  /-- The cell was filled in the last beat. -/
  fresh : Bool
  fire : Fire

namespace Topology

/-- The id of a cell in a row, by its place. The root comes before all of them. -/
def seat (i : Nat) : CellId := ⟨i + 1⟩

/-- The id of the wire to a cell in a row from the one before it. The first cell has none. -/
def feed (i : Nat) : WireId := ⟨-i⟩

/-- The wire from a cell in a row to the next one. -/
def link (i : Nat) : Wire := ⟨feed (i + 1), seat i, seat (i + 1), .any, .now⟩

theorem seat_inj {i j : Nat} : seat i = seat j ↔ i = j := by
  simp [seat]

theorem seat_ne_root (i : Nat) : seat i ≠ .root := by
  simp only [seat, CellId.root, ne_eq, CellId.mk.injEq]
  omega

theorem feed_inj {i j : Nat} : feed i = feed j ↔ i = j := by
  simp [feed]

theorem seat_ne_feed (i j : Nat) : (seat i).toId ≠ (feed j).toId := by
  simp only [seat, feed, CellId.toId, WireId.toId, ne_eq, Id.mk.injEq]
  omega

end Topology

open PulseCircuit.Topology

/-- The cell sits at a place in a row, and its wire has been made if that place is one of the first `wired`. -/
structure Cell.Sits (cell : Cell) (wired i : Nat) (look : Look) : Prop where
  id : cell.id = seat i
  parent : cell.parent = some .root
  inputs : cell.inputs = if 0 < i ∧ i < wired then [feed i] else []
  kind : cell.kind = look.kind
  position : cell.position = look.position
  fresh : cell.hasTag .justCreated = look.fresh
  fire : cell.fire = look.fire

namespace Circuit

/-- Below the root there is nothing but a row of cells, and the first `wired` of them are each fed by the one
before. -/
structure Laid (c : Circuit) (placed wired : Nat) (look : Nat → Look) : Prop where
  root : ∃ cell, c.cell? .root = some cell ∧ cell.inputs = [] ∧ cell.fire = .none
  seated : ∀ i < placed, ∃ cell, c.cell? (seat i) = some cell ∧ cell.Sits wired i (look i)
  only : ∀ id cell, c.cell? id = some cell → id = .root ∨ ∃ i < placed, id = seat i
  wire : ∀ i, i + 1 < wired →
    c.wire? (feed (i + 1)) = some (link i)

theorem Laid.congr {c : Circuit} {placed wired : Nat} {look other : Nat → Look} (hlaid : c.Laid placed wired look)
    (hsame : ∀ i < placed, look i = other i) : c.Laid placed wired other where
  root := hlaid.root
  seated i hi := by
    rw [← hsame i hi]
    exact hlaid.seated i hi
  only := hlaid.only
  wire := hlaid.wire

/-- One cell is changed, and is in its place still. -/
theorem Laid.changeCell {c : Circuit} {placed wired : Nat} {look : Nat → Look} (hlaid : c.Laid placed wired look)
    {i : Nat} {change : Cell → Cell} {new : Look}
    (hchange : ∀ cell, cell.Sits wired i (look i) → (change cell).Sits wired i new) :
    (c.changeCell (seat i) change).Laid placed wired (Function.update look i new) := by
  refine ⟨?_, ?_, ?_, ?_⟩
  · rw [cell?_changeCell, if_neg (seat_ne_root i).symm]
    exact hlaid.root
  · intro k hk
    obtain ⟨cell, hcell, hsits⟩ := hlaid.seated k hk
    rw [cell?_changeCell]
    by_cases hki : k = i
    · subst hki
      rw [if_pos rfl, Function.update_self, hcell]
      exact ⟨_, rfl, hchange cell hsits⟩
    · rw [if_neg (mt seat_inj.mp hki), Function.update_of_ne hki]
      exact ⟨cell, hcell, hsits⟩
  · intro id cell hcell
    rw [cell?_changeCell] at hcell
    split at hcell
    next hid =>
      obtain ⟨old, hold, -⟩ := Option.map_eq_some_iff.mp hcell
      rw [hid]
      exact hlaid.only _ _ hold
    next => exact hlaid.only _ _ hcell
  · intro k hk
    rw [wire?_changeCell]
    exact hlaid.wire k hk

end Circuit

/-! ## One more cell, one more wire -/

namespace Circuit

open Edit Running

/-- There is one more cell below a cell that was there. -/
structure CellAdded (c d : Circuit) (parent id : CellId) (kind : CellKind) (position : Position) : Prop where
  new : d.cell? id = some (.fresh id (some parent) kind position)
  above : ∀ cell, c.cell? parent = some cell →
    d.cell? parent = some { cell with children := cell.children ++ [id] }
  others : ∀ x, x ≠ parent → x ≠ id → d.cell? x = c.cell? x
  wires : ∀ w : WireId, w.toId ≠ id.toId → d.wire? w = c.wire? w
  pool : d.ids = c.ids.takeCell.2

/-- There is one more wire between two cells that were there. -/
structure WireAdded (c d : Circuit) (wire : Wire) : Prop where
  new : d.wire? wire.id = some wire
  source : ∀ cell, c.cell? wire.source = some cell →
    d.cell? wire.source = some { cell with outputs := cell.outputs ++ [wire.id] }
  target : ∀ cell, c.cell? wire.target = some cell →
    d.cell? wire.target = some { cell with inputs := cell.inputs ++ [wire.id] }
  others : ∀ x, x ≠ wire.source → x ≠ wire.target → d.cell? x = c.cell? x
  wires : ∀ w, w ≠ wire.id → d.wire? w = c.wire? w
  pool : d.ids = c.ids.takeWire.2

variable {c : Circuit}

theorem Sound.createCell_added (h : c.Sound) {parent : CellId} {above : Cell} (habove : c.cell? parent = some above)
    (validate : Bool) (kind : CellKind) (position : Position) :
    ∃ d, Circuit.createCell validate parent kind position c = .ok c.ids.takeCell.1 d ∧ d.Sound ∧
      c.CellAdded d parent c.ids.takeCell.1 kind position := by
  have hsound := h.createCell validate parent kind position
  have hok := Sound.run_of_validated hsound (createCell_run habove validate kind position)
  rw [final_of_ok hok] at hsound
  -- no cell has the id that is handed out
  have hne : parent ≠ c.ids.takeCell.1 := by
    intro hsame
    have hlive := Table.contains_iff.mpr (mem_keys_of_cell? habove)
    rw [hsame, (h.owned.absent_of_hands h.owned.pool.takeCell.2).1] at hlive
    cases hlive
  refine ⟨_, hok, hsound, ?_, ?_, ?_, ?_, ?_⟩
  · rw [cell?_changeCell, if_neg hne.symm, cell?_put_cell, if_pos rfl]
  · intro cell hcell
    rw [cell?_changeCell, if_pos rfl, cell?_put_cell, if_neg hne]
    exact congrArg (Option.map _) hcell
  · intro x hx hxid
    rw [cell?_changeCell, if_neg hx, cell?_put_cell, if_neg hxid]
    rfl
  · intro w hw
    rw [wire?_changeCell, wire?_put_of_ne _ _ hw]
    rfl
  · rw [ids_changeCell]
    rfl

theorem Sound.createWire_added (h : c.Sound) {source target : CellId} {left reached : Cell}
    (hsource : c.cell? source = some left) (htarget : c.cell? target = some reached) (hne : source ≠ target)
    (validate : Bool) (colour : ColourFilter) (timing : Timing) :
    ∃ d, Circuit.createWire validate source target colour timing c = .ok c.ids.takeWire.1 d ∧ d.Sound ∧
      c.WireAdded d ⟨c.ids.takeWire.1, source, target, colour, timing⟩ := by
  have hsound := h.createWire validate source target colour timing
  have hok := Sound.run_of_validated hsound (createWire_run h.owned hsource htarget validate colour timing)
  rw [final_of_ok hok] at hsound
  -- no row lies where the wire is put
  have hnew : c.live.get? c.ids.takeWire.1 = none := by
    have habsent := (h.owned.absent_of_hands h.owned.pool.takeWire.2).1
    simpa [Table.contains] using habsent
  have hput : ∀ x, ({ c with ids := c.ids.takeWire.2 }.put c.ids.takeWire.1
      (.wire ⟨c.ids.takeWire.1, source, target, colour, timing⟩)).cell? x = c.cell? x :=
    fun x => cell?_put_wire hnew _ x
  refine ⟨_, hok, hsound, ?_, ?_, ?_, ?_, ?_, ?_⟩
  · rw [wire?_changeCell, wire?_changeCell, wire?_put_self]
  · intro cell hcell
    rw [cell?_changeCell, if_neg hne, cell?_changeCell, if_pos rfl, hput, hcell]
    rfl
  · intro cell hcell
    rw [cell?_changeCell, if_pos rfl, cell?_changeCell, if_neg hne.symm, hput, hcell]
    rfl
  · intro x hx hx'
    rw [cell?_changeCell, if_neg hx', cell?_changeCell, if_neg hx, hput]
  · intro w hw
    rw [wire?_changeCell, wire?_changeCell, wire?_put_of_ne _ _ (mt WireId.toId_inj.mp hw)]
    rfl
  · rw [ids_changeCell, ids_changeCell]
    rfl

end Circuit

/-! ## Building a row -/

namespace Topology

open Edit Running Circuit

variable {c : Circuit} {n : Nat} {look : Nat → Look}

/-- The pool after a row was built. -/
def poolOf (placed wired : Nat) : IdPool := ⟨placed + 1, -max 1 wired, [], [], []⟩

/-- One more cell is placed behind the row. -/
theorem createCell_laid (hsound : c.Sound) (hlaid : c.Laid n n look) (hids : c.ids = poolOf n n)
    (validate : Bool) {kind : CellKind} {position : Position}
    (hlook : look n = ⟨kind, position, false, .none⟩) :
    ∃ d, createCell validate .root kind position c = .ok (seat n) d ∧ d.Sound ∧ d.Laid (n + 1) n look ∧
      d.ids = poolOf (n + 1) n := by
  obtain ⟨root, hroot, hinputs, hfire⟩ := hlaid.root
  have htake : c.ids.takeCell = (seat n, poolOf (n + 1) n) := by
    rw [hids]
    simp [IdPool.takeCell, poolOf, seat]
  obtain ⟨d, hrun, hsound', hadded⟩ := hsound.createCell_added hroot validate kind position
  have hpool := hadded.pool
  rw [htake] at hrun hadded hpool
  refine ⟨d, hrun, hsound', ⟨⟨_, hadded.above root hroot, hinputs, hfire⟩, ?_, ?_, ?_⟩, hpool⟩
  · intro i hi
    rcases Nat.lt_succ_iff_lt_or_eq.mp hi with hlt | rfl
    · obtain ⟨cell, hcell, hsits⟩ := hlaid.seated i hlt
      have hne : seat i ≠ seat n := mt seat_inj.mp (Nat.ne_of_lt hlt)
      exact ⟨cell, (hadded.others _ (seat_ne_root i) hne).trans hcell, hsits⟩
    · refine ⟨_, hadded.new, ⟨rfl, rfl, ?_, ?_, ?_, ?_, ?_⟩⟩
      · rw [if_neg (by omega)]
        rfl
      all_goals rw [hlook]; rfl
  · intro x cell hcell
    by_cases hx : x = .root
    · exact Or.inl hx
    · by_cases hxn : x = seat n
      · exact Or.inr ⟨n, Nat.lt_succ_self n, hxn⟩
      · rw [hadded.others x hx hxn] at hcell
        rcases hlaid.only x cell hcell with hroot | ⟨i, hi, rfl⟩
        · exact Or.inl hroot
        · exact Or.inr ⟨i, Nat.lt_succ_of_lt hi, rfl⟩
  · intro i hi
    rw [hadded.wires _ (seat_ne_feed n (i + 1)).symm]
    exact hlaid.wire i hi

/-- The first cell needs no wire. -/
theorem laid_first (hlaid : c.Laid 1 0 look) : c.Laid 1 1 look := by
  refine ⟨hlaid.root, ?_, hlaid.only, fun i hi => by omega⟩
  intro i hi
  obtain ⟨cell, hcell, hsits⟩ := hlaid.seated i hi
  refine ⟨cell, hcell, { hsits with inputs := ?_ }⟩
  rw [hsits.inputs, if_neg (by omega), if_neg (by omega)]

/-- The last cell is wired to the one before it. -/
theorem createWire_laid (hsound : c.Sound) (hlaid : c.Laid (n + 2) (n + 1) look)
    (hids : c.ids = poolOf (n + 2) (n + 1)) (validate : Bool) :
    ∃ d, createWire validate (seat n) (seat (n + 1)) .any .now c = .ok (feed (n + 1)) d ∧ d.Sound ∧
      d.Laid (n + 2) (n + 2) look ∧ d.ids = poolOf (n + 2) (n + 2) := by
  obtain ⟨source, hsource, hsourceSits⟩ := hlaid.seated n (by omega)
  obtain ⟨target, htarget, htargetSits⟩ := hlaid.seated (n + 1) (by omega)
  have htake : c.ids.takeWire = (feed (n + 1), poolOf (n + 2) (n + 2)) := by
    rw [hids]
    simp [IdPool.takeWire, poolOf, feed]
    omega
  have hne : seat n ≠ seat (n + 1) := mt seat_inj.mp (Nat.ne_of_lt (Nat.lt_succ_self n))
  obtain ⟨d, hrun, hsound', hadded⟩ := hsound.createWire_added hsource htarget hne validate .any .now
  have hpool := hadded.pool
  rw [htake] at hrun hadded hpool
  refine ⟨d, hrun, hsound', ⟨?_, ?_, ?_, ?_⟩, hpool⟩
  · obtain ⟨root, hroot, hdark⟩ := hlaid.root
    exact ⟨root, (hadded.others _ (seat_ne_root _).symm (seat_ne_root _).symm).trans hroot, hdark⟩
  · intro i hi
    rcases Nat.lt_trichotomy i n with hlt | rfl | hgt
    · obtain ⟨cell, hcell, hsits⟩ := hlaid.seated i hi
      refine ⟨cell, (hadded.others _ ?_ ?_).trans hcell, { hsits with inputs := ?_ }⟩
      · exact mt seat_inj.mp (Nat.ne_of_lt hlt)
      · exact mt seat_inj.mp (Nat.ne_of_lt (Nat.lt_succ_of_lt hlt))
      · rw [hsits.inputs]
        exact if_congr (by omega) rfl rfl
    · refine ⟨_, hadded.source source hsource, { hsourceSits with inputs := ?_ }⟩
      show source.inputs = _
      rw [hsourceSits.inputs]
      exact if_congr (by omega) rfl rfl
    · obtain rfl : i = n + 1 := by omega
      refine ⟨_, hadded.target target htarget, { htargetSits with inputs := ?_ }⟩
      show target.inputs ++ [feed (n + 1)] = _
      rw [htargetSits.inputs, if_neg (by omega), if_pos (by omega)]
      rfl
  · intro x cell hcell
    by_cases hx : x = seat n
    · exact Or.inr ⟨n, by omega, hx⟩
    · by_cases hx' : x = seat (n + 1)
      · exact Or.inr ⟨n + 1, by omega, hx'⟩
      · rw [hadded.others x hx hx'] at hcell
        exact hlaid.only x cell hcell
  · intro i hi
    rcases Nat.lt_or_eq_of_le (Nat.lt_succ_iff.mp hi) with hlt | heq
    · have hold : feed (i + 1) ≠ feed (n + 1) := mt feed_inj.mp (Nat.ne_of_lt hlt)
      rw [hadded.wires _ hold]
      exact hlaid.wire i hlt
    · obtain rfl : i = n := by omega
      exact hadded.new

/-- A cell is placed, joined to the one before it if there is one, and the others follow. -/
theorem row_cons_run {validate : Bool} {kind : CellKind} {kinds : List CellKind} {x : Nat} {previous : Option CellId}
    {id : CellId} {ids : List CellId} {d e f : Circuit} (hplace : place validate .root kind x 0 c = .ok id d)
    (hjoin : ∀ before, previous = some before → join validate before id .now d = .ok () e)
    (hfirst : previous = none → d = e) (hrest : row validate .root 0 kinds (x + 1) (some id) e = .ok ids f) :
    row validate .root 0 (kind :: kinds) x previous c = .ok (id :: ids) f := by
  rw [row, bind_of_ok hplace]
  cases previous with
  | none =>
    rw [hfirst rfl]
    show (row validate .root 0 kinds (x + 1) (some id) >>= fun cells => pure (id :: cells)) e = _
    rw [bind_of_ok hrest]
    rfl
  | some before =>
    show (join validate before id .now >>= fun _ =>
      row validate .root 0 kinds (x + 1) (some id) >>= fun cells => pure (id :: cells)) d = _
    rw [bind_of_ok (hjoin before rfl), bind_of_ok hrest]
    rfl

/-- The cell before a place in a row. -/
def seatBefore : Nat → Option CellId
  | 0 => none
  | n + 1 => some (seat n)

/-- One more cell is placed behind the row and joined to the one before it. -/
theorem grow_run (validate : Bool) (hsound : c.Sound) (hlaid : c.Laid n n look) (hids : c.ids = poolOf n n)
    {kind : CellKind} (hlook : look n = ⟨kind, ⟨Float.ofNat n, Float.ofNat 0⟩, false, .none⟩) :
    ∃ d e, place validate .root kind n 0 c = .ok (seat n) d ∧
      (∀ before, seatBefore n = some before → join validate before (seat n) .now d = .ok () e) ∧
      (seatBefore n = none → d = e) ∧ e.Sound ∧ e.Laid (n + 1) (n + 1) look ∧ e.ids = poolOf (n + 1) (n + 1) := by
  obtain ⟨d, hplace, hsound, hlaid, hids⟩ := createCell_laid hsound hlaid hids validate hlook
  cases n with
  | zero =>
    refine ⟨d, d, hplace, ?_, fun _ => rfl, hsound, laid_first hlaid, hids⟩
    rintro before ⟨⟩
  | succ m =>
    obtain ⟨e, hwire, hsound, hlaid, hids⟩ := createWire_laid hsound hlaid hids validate
    refine ⟨d, e, hplace, ?_, ?_, hsound, hlaid, hids⟩
    · rintro before ⟨⟩
      rw [join, bind_of_ok hwire]
      rfl
    · rintro ⟨⟩

/-- Cells of the given kinds are laid behind a row. -/
theorem row_run (validate : Bool) (kinds : List CellKind) (hsound : c.Sound) (hlaid : c.Laid n n look)
    (hids : c.ids = poolOf n n)
    (hlook : ∀ k kind, kinds[k]? = some kind →
      look (n + k) = ⟨kind, ⟨Float.ofNat (n + k), Float.ofNat 0⟩, false, .none⟩) :
    ∃ d, row validate .root 0 kinds n (seatBefore n) c = .ok ((List.range' n kinds.length).map seat) d ∧
      d.Sound ∧ d.Laid (n + kinds.length) (n + kinds.length) look := by
  induction kinds generalizing c n with
  | nil => exact ⟨c, rfl, hsound, hlaid⟩
  | cons kind kinds ih =>
    obtain ⟨d, e, hplace, hjoin, hfirst, hsound, hlaid, hids⟩ :=
      grow_run validate hsound hlaid hids (hlook 0 kind rfl)
    have hrest : ∀ k kind, kinds[k]? = some kind →
        look (n + 1 + k) = ⟨kind, ⟨Float.ofNat (n + 1 + k), Float.ofNat 0⟩, false, .none⟩ := by
      intro k other hk
      rw [Nat.add_right_comm, Nat.add_assoc]
      exact hlook (k + 1) other hk
    obtain ⟨f, hrun, hsound, hlaid⟩ := ih hsound hlaid hids hrest
    refine ⟨f, row_cons_run hplace hjoin hfirst hrun, hsound, ?_⟩
    rw [List.length_cons, ← Nat.add_assoc, Nat.add_right_comm]
    exact hlaid

/-- What pulses see of a cell that was laid in a chain. -/
def lookAt (kinds : List CellKind) (i : Nat) : Look :=
  ⟨kinds.getD i .relay, ⟨Float.ofNat i, Float.ofNat 0⟩, false, .none⟩

theorem laid_initial (look : Nat → Look) : Circuit.initial.Laid 0 0 look := by
  refine ⟨⟨_, cell?_initial .root, rfl, rfl⟩, fun i hi => by omega, ?_, fun i hi => by omega⟩
  intro id cell hcell
  rw [cell?_initial] at hcell
  split at hcell
  next hid => exact Or.inl hid
  next => cases hcell

/-- A chain of the given kinds can be built, and is a row below the root. -/
theorem chain_run (validate : Bool) (kinds : List CellKind) :
    ∃ d, chain validate kinds .initial = .ok ((List.range kinds.length).map seat) d ∧ d.Sound ∧
      d.Laid kinds.length kinds.length (lookAt kinds) := by
  obtain ⟨d, hrun, hsound, hlaid⟩ := row_run validate kinds sound_initial
    (laid_initial (lookAt kinds)) rfl
    (fun k kind hk => by rw [lookAt, Nat.zero_add, List.getD_eq_getElem?_getD, hk]; rfl)
  rw [Nat.zero_add] at hlaid
  refine ⟨d, ?_, hsound, hlaid⟩
  rw [List.range_eq_range']
  exact hrun

/-- A cell of a row is fired. -/
theorem fire_run (hsound : c.Sound) (hlaid : c.Laid n n look) {i : Nat} (hi : i < n) (validate : Bool)
    (colour : Colour) (pulse : Pulse) :
    ∃ d, fire validate (seat i) colour pulse c = .ok () d ∧ d.Sound ∧
      d.Laid n n (Function.update look i { look i with fire := (look i).fire.set colour (some pulse) }) := by
  obtain ⟨cell, hcell, -⟩ := hlaid.seated i hi
  have hsound' := hsound.setPulse validate (seat i) colour (some pulse)
  rw [setPulse, Edit.final_onCell_validated] at hsound'
  have hsame : ∀ cell : Cell, Cell.SameLinks { cell with fire := cell.fire.set colour (some pulse) } cell :=
    fun _ => ⟨rfl, rfl, rfl, rfl, rfl⟩
  refine ⟨_, hsound.linked.onCell_validated_run hcell hsame validate _, hsound', ?_⟩
  apply hlaid.changeCell
  intro old hsits
  exact { hsits with fire := congrArg (Fire.set · colour (some pulse)) hsits.fire }

end Topology

end PulseCircuit
