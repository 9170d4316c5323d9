import Mathlib.Data.List.Induction
import PulseCircuit.Proofs.Checked
import PulseCircuit.Proofs.FreshIds
import PulseCircuit.Proofs.RoundTrip

/-!
# Pools that do not fit

A circuit that is read takes its pool from the text, and the check of its rows does not look at it. So a pool may
hand out an id under which a row lies, and the row is overwritten (`overdrawn_reuses`).

Nothing less than the fit of the pool keeps that from happening. As long as there is a cell, creations can empty
the pool and make it count on to the end of its range, and a purge brings out the ids that are held: in the end each
id that a pool may hand out is handed out.

* `IdPool.Yields`, `IdPool.exists_yields`: the ids a pool hands out one after the other;
* `NeverReuses.yields`: where creations never meet a row, what comes of the pool comes once;
* `neverReuses_iff_fits`: so a circuit that was read and passes the check never reuses an id exactly if its pool
  fits.
-/

namespace PulseCircuit

namespace IdPool

/-- Hands out an id of the kind asked for. -/
def take (noun : Noun) (pool : IdPool) : Id × IdPool :=
  match noun with
  | .cell => (pool.takeCell.1, pool.takeCell.2)
  | .wire => (pool.takeWire.1, pool.takeWire.2)

/-- The pool hands out the ids one after the other, and its counters stay in range. -/
inductive Yields : IdPool → List Id → IdPool → Prop
  | stop {pool : IdPool} : Yields pool [] pool
  | next {pool mid rest : IdPool} {noun : Noun} {id : Id} {ids : List Id} (htake : pool.take noun = (id, mid))
    (hrange : mid.InRange) (h : Yields mid ids rest) : Yields pool (id :: ids) rest

theorem Yields.append {pool mid rest : IdPool} {ids later : List Id} (h : pool.Yields ids mid)
    (h' : mid.Yields later rest) : pool.Yields (ids ++ later) rest := by
  induction h with
  | stop => exact h'
  | next htake hrange _ ih => exact .next htake hrange (ih h')

/-! ## What comes of a pool -/

/-- The free cell ids come first, the one given back last before the others. -/
theorem yields_freeCells {pool : IdPool} (hrange : pool.InRange) :
    pool.Yields (pool.freeCells.map CellId.toId).reverse { pool with freeCells := [] } := by
  obtain ⟨nextCell, nextWire, freeCells, freeWires, held⟩ := pool
  induction freeCells using List.reverseRecOn with
  | nil => exact .stop
  | append_singleton ids id ih =>
    have htake : (IdPool.mk nextCell nextWire (ids ++ [id]) freeWires held).take .cell =
        (id.toId, ⟨nextCell, nextWire, ids, freeWires, held⟩) := by
      simp [take, takeCell]
    rw [List.map_append, List.reverse_append]
    exact .next htake hrange (ih hrange)

theorem yields_freeWires {pool : IdPool} (hrange : pool.InRange) :
    pool.Yields (pool.freeWires.map WireId.toId).reverse { pool with freeWires := [] } := by
  obtain ⟨nextCell, nextWire, freeCells, freeWires, held⟩ := pool
  induction freeWires using List.reverseRecOn with
  | nil => exact .stop
  | append_singleton ids id ih =>
    have htake : (IdPool.mk nextCell nextWire freeCells (ids ++ [id]) held).take .wire =
        (id.toId, ⟨nextCell, nextWire, freeCells, ids, held⟩) := by
      simp [take, takeWire]
    rw [List.map_append, List.reverse_append]
    exact .next htake hrange (ih hrange)

/-- The first ids of cells that a pool with nothing left counts to. -/
def newCells (pool : IdPool) (m : Nat) : List Id := (List.range m).map fun i : Nat => ⟨pool.nextCell + i⟩

/-- The first ids of wires that a pool with nothing left counts to. -/
def newWires (pool : IdPool) (n : Nat) : List Id := (List.range n).map fun i : Nat => ⟨pool.nextWire - i⟩

theorem newCells_succ (pool : IdPool) (m : Nat) :
    pool.newCells (m + 1) = ⟨pool.nextCell⟩ :: { pool with nextCell := pool.nextCell + 1 }.newCells m := by
  rw [newCells, newCells, List.range_succ_eq_map]
  simp [Function.comp_def, Int.add_assoc, Int.add_comm 1]

theorem newWires_succ (pool : IdPool) (n : Nat) :
    pool.newWires (n + 1) = ⟨pool.nextWire⟩ :: { pool with nextWire := pool.nextWire - 1 }.newWires n := by
  rw [newWires, newWires, List.range_succ_eq_map]
  simp [Function.comp_def, Int.sub_sub, Int.add_comm 1]

theorem InRange.countCells {pool : IdPool} (h : pool.InRange) {next : Int} (hfrom : pool.nextCell ≤ next)
    (hto : next ≤ IntRange.bits32.high) : { pool with nextCell := next }.InRange :=
  ⟨IntRange.contains_iff.mpr ⟨Int.le_trans (IntRange.contains_iff.mp h.1).1 hfrom, hto⟩, h.2⟩

theorem InRange.countWires {pool : IdPool} (h : pool.InRange) {next : Int} (hfrom : next ≤ pool.nextWire)
    (hto : IntRange.bits32.low ≤ next) : { pool with nextWire := next }.InRange :=
  ⟨h.1, IntRange.contains_iff.mpr ⟨hto, Int.le_trans hfrom (IntRange.contains_iff.mp h.2).2⟩⟩

/-- With no free cell id left the pool counts cells upwards, as far as its range goes. -/
theorem yields_newCells (m : Nat) {pool : IdPool} (hrange : pool.InRange) (hfree : pool.freeCells = [])
    (hend : pool.nextCell + m ≤ IntRange.bits32.high) :
    pool.Yields (pool.newCells m) { pool with nextCell := pool.nextCell + m } := by
  induction m generalizing pool with
  | zero =>
    rw [Int.ofNat_zero, Int.add_zero]
    exact .stop
  | succ m ih =>
    have htake : pool.take .cell = (⟨pool.nextCell⟩, { pool with nextCell := pool.nextCell + 1 }) := by
      simp [take, takeCell, hfree, CellId.toId]
    have hnext := hrange.countCells (show pool.nextCell ≤ pool.nextCell + 1 by omega) (by omega)
    have hsum : pool.nextCell + 1 + (m : Int) = pool.nextCell + ↑(m + 1) := by omega
    have hrest := ih hnext hfree (hsum ▸ hend)
    rw [hsum] at hrest
    rw [newCells_succ]
    exact .next htake hnext hrest

theorem yields_newWires (n : Nat) {pool : IdPool} (hrange : pool.InRange) (hfree : pool.freeWires = [])
    (hend : IntRange.bits32.low ≤ pool.nextWire - n) :
    pool.Yields (pool.newWires n) { pool with nextWire := pool.nextWire - n } := by
  induction n generalizing pool with
  | zero =>
    rw [Int.ofNat_zero, Int.sub_zero]
    exact .stop
  | succ n ih =>
    have htake : pool.take .wire = (⟨pool.nextWire⟩, { pool with nextWire := pool.nextWire - 1 }) := by
      simp [take, takeWire, hfree, WireId.toId]
    have hnext := hrange.countWires (show pool.nextWire - 1 ≤ pool.nextWire by omega) (by omega)
    have hsum : pool.nextWire - 1 - (n : Int) = pool.nextWire - ↑(n + 1) := by omega
    have hrest := ih hnext hfree (hsum ▸ hend)
    rw [hsum] at hrest
    rw [newWires_succ]
    exact .next htake hnext hrest

theorem exists_mem_newCells {pool : IdPool} {id : Id} (h : pool.Counts .cell id) :
    ∃ m : Nat, pool.nextCell + m ≤ IntRange.bits32.high ∧ id ∈ pool.newCells m := by
  obtain ⟨hfrom, hto⟩ := h
  obtain ⟨i, hi⟩ := Int.le.dest hfrom
  refine ⟨i + 1, by omega, List.mem_map.mpr ⟨i, List.mem_range.mpr (Nat.lt_succ_self i), by rw [hi]⟩⟩

theorem exists_mem_newWires {pool : IdPool} {id : Id} (h : pool.Counts .wire id) :
    ∃ n : Nat, IntRange.bits32.low ≤ pool.nextWire - n ∧ id ∈ pool.newWires n := by
  obtain ⟨hfrom, hto⟩ := h
  obtain ⟨i, hi⟩ := Int.le.dest hfrom
  refine ⟨i + 1, by omega, List.mem_map.mpr ⟨i, List.mem_range.mpr (Nat.lt_succ_self i), ?_⟩⟩
  rw [← hi, Int.add_sub_cancel]

/-- A pool can be made to hand out all free ids, and then new ones of both kinds as far as its range goes. -/
theorem exists_yields {pool : IdPool} (hrange : pool.InRange) {m n : Nat}
    (hcells : pool.nextCell + m ≤ IntRange.bits32.high) (hwires : IntRange.bits32.low ≤ pool.nextWire - n) :
    ∃ spent rest, spent.Perm pool.free ∧ pool.Yields (spent ++ (pool.newCells m ++ pool.newWires n)) rest := by
  have hspent : pool.Yields ((pool.freeCells.map CellId.toId).reverse ++ (pool.freeWires.map WireId.toId).reverse)
      { pool with freeCells := [], freeWires := [] } :=
    (yields_freeCells hrange).append (yields_freeWires hrange)
  have hcounted : { pool with freeCells := [], freeWires := [], nextCell := pool.nextCell + m }.InRange :=
    hrange.countCells (by omega) hcells
  have hnewCells : { pool with freeCells := [], freeWires := [] }.Yields (pool.newCells m)
      { pool with freeCells := [], freeWires := [], nextCell := pool.nextCell + m } :=
    yields_newCells m hrange rfl hcells
  refine ⟨_, _, ?_, hspent.append (hnewCells.append (yields_newWires n hcounted rfl hwires))⟩
  exact (List.reverse_perm _).append (List.reverse_perm _)

end IdPool

namespace Circuit

open Edit Running

variable {c d : Circuit} {p : CellId}

theorem not_mem_keys_of_contains {t : Table Id Row} {id : Id} (h : t.contains id = false) : id ∉ t.keys := by
  rw [← Table.contains_iff, h]
  exact Bool.false_ne_true

/-! ## Creations that never meet a row -/

/-- The next cell id can be asked for below any cell, and afterwards that cell is still there. -/
theorem NeverReuses.takeCell (h : c.NeverReuses) (hlive : ∃ cell, c.cell? p = some cell)
    (hrange : c.ids.takeCell.2.InRange) :
    c.ids.takeCell.1.toId ∉ c.live.keys ∧ c.ids.takeCell.1.toId ∉ c.archive.keys ∧
      ∃ d : Circuit, d.NeverReuses ∧ (∃ cell, d.cell? p = some cell) ∧
        d.live.keys = c.live.keys ++ [c.ids.takeCell.1.toId] ∧ d.archive = c.archive ∧
        d.ids = c.ids.takeCell.2 := by
  obtain ⟨above, habove⟩ := hlive
  have hrun := createCell_run habove false .relay .origin
  have hfinal : (Action.createCell p .relay .origin).perform false c = _ := final_of_ok hrun
  have hids : ((Action.createCell p .relay .origin).perform false c).ids = c.ids.takeCell.2 := by
    rw [hfinal, ids_changeCell]
    rfl
  rw [← hids] at hrange
  obtain ⟨hlive, harchived⟩ := (h c .now).cell false p .relay .origin _ _ hrun (hfinal ▸ hrange)
  have hnew := not_mem_keys_of_contains hlive
  refine ⟨hnew, not_mem_keys_of_contains harchived, _,
    h.later (.edited .now false (.createCell p .relay .origin) hrange), ?_⟩
  rw [hfinal]
  refine ⟨live_changeCell ?_ _ _, ?_, archive_changeCell .., ids_changeCell ..⟩
  · rw [cell?_put_cell]
    split
    · exact ⟨_, rfl⟩
    · exact ⟨above, habove⟩
  · rw [keys_changeCell]
    exact Table.keys_insert_of_not_mem _ hnew

/-- The next wire id can be asked for between any cell and itself, and afterwards that cell is still there. -/
theorem NeverReuses.takeWire (h : c.NeverReuses) (hlive : ∃ cell, c.cell? p = some cell)
    (hrange : c.ids.takeWire.2.InRange) :
    c.ids.takeWire.1.toId ∉ c.live.keys ∧ c.ids.takeWire.1.toId ∉ c.archive.keys ∧
      ∃ d : Circuit, d.NeverReuses ∧ (∃ cell, d.cell? p = some cell) ∧
        d.live.keys = c.live.keys ++ [c.ids.takeWire.1.toId] ∧ d.archive = c.archive ∧
        d.ids = c.ids.takeWire.2 := by
  obtain ⟨cell, hcell⟩ := hlive
  -- a wire in the place of the cell would be a row overwritten
  have hne : p.toId ≠ c.ids.takeWire.1 := by
    intro hsame
    obtain ⟨hidden, hhidden⟩ : ∃ hidden, hidden = { c with ids := c.ids.takeWire.2 }.put c.ids.takeWire.1
        (.wire ⟨c.ids.takeWire.1, p, p, .any, .now⟩) := ⟨_, rfl⟩
    have hlost : hidden.live.get? p = some (.wire ⟨c.ids.takeWire.1, p, p, .any, .now⟩) := by
      rw [hhidden, get?_put, if_pos hsame]
    have hfault : hidden.cell p = .error (.wrongKind p .cell) := by
      rw [Circuit.cell, hlost]
    have hfinal : (createWire false p p .any .now).final c = hidden := by
      rw [createWire, final_bind_of_ok (ask_cell hcell), final_bind_of_ok (ask_cell hcell),
        final_bind_of_ok takeWireId_run, final_bind_of_ok (putRow_run ..), ← hhidden, onCell, bind_assoc,
        final_bind_of_error (ask_of_error hfault)]
    have hend : ((createWire false p p .any .now).final c).ids.InRange := by
      rw [hfinal, hhidden]
      exact hrange
    obtain ⟨new, hnew, hextends⟩ :=
      (h c .now).wire_extends false p p .any .now hend p _ (cell?_eq_some_iff.mp hcell)
    rw [hfinal, hlost, Option.some.injEq] at hnew
    subst hnew
    exact hextends
  have hrun := createWire_run_of_ne hcell hcell hne hne false .any .now
  have hfinal : (Action.createWire p p .any .now).perform false c = _ := final_of_ok hrun
  have hids : ((Action.createWire p p .any .now).perform false c).ids = c.ids.takeWire.2 := by
    rw [hfinal, ids_changeCell, ids_changeCell]
    rfl
  rw [← hids] at hrange
  obtain ⟨hlive, harchived⟩ := (h c .now).wire false p p .any .now _ _ hrun (hfinal ▸ hrange)
  have hnew := not_mem_keys_of_contains hlive
  refine ⟨hnew, not_mem_keys_of_contains harchived, _,
    h.later (.edited .now false (.createWire p p .any .now) hrange), ?_⟩
  rw [hfinal]
  refine ⟨live_changeCell (live_changeCell ⟨cell, ?_⟩ _ _) _ _, ?_, ?_, ?_⟩
  · exact (cell?_put_of_ne _ _ hne).trans hcell
  · rw [keys_changeCell, keys_changeCell]
    exact Table.keys_insert_of_not_mem _ hnew
  · rw [archive_changeCell, archive_changeCell]
    rfl
  · rw [ids_changeCell, ids_changeCell]
    rfl

/-- Whatever a pool hands out, one id after the other, comes once and lies in no table. -/
theorem NeverReuses.yields (h : c.NeverReuses) (hlive : ∃ cell, c.cell? p = some cell) {ids : List Id}
    {rest : IdPool} (hyields : c.ids.Yields ids rest) :
    (c.live.keys ++ ids).Nodup ∧ ∀ id ∈ ids, id ∉ c.archive.keys := by
  generalize hpool : c.ids = pool at hyields
  induction hyields generalizing c with
  | stop =>
    refine ⟨?_, fun id hid => by cases hid⟩
    rw [List.append_nil]
    exact c.live.nodup
  | @next pool mid rest noun id ids htake hrange _ ih =>
    subst hpool
    obtain ⟨harchived, d, hnever, hcell, hkeys, harchive, hids⟩ : id ∉ c.archive.keys ∧
        ∃ d : Circuit, d.NeverReuses ∧ (∃ cell, d.cell? p = some cell) ∧
          d.live.keys = c.live.keys ++ [id] ∧ d.archive = c.archive ∧ d.ids = mid := by
      cases noun <;> cases htake
      case cell => exact (h.takeCell hlive hrange).2
      case wire => exact (h.takeWire hlive hrange).2
    obtain ⟨honce, hrest⟩ := ih hnever hcell hids
    rw [hkeys, List.append_assoc, List.singleton_append] at honce
    rw [harchive] at hrest
    refine ⟨honce, fun x hx => ?_⟩
    rcases List.mem_cons.mp hx with rfl | hx
    · exact harchived
    · exact hrest x hx

/-- What a pool comes to when it is emptied and counts on is no live id, no archived id and nothing twice. -/
theorem NeverReuses.spare (h : c.NeverReuses) (hrange : c.ids.InRange) (hlive : ∃ cell, c.cell? p = some cell) :
    (∀ id, c.ids.Counts .cell id → ¬ c.ids.Counts .wire id) ∧ (c.live.keys ++ c.ids.free).Nodup ∧
      (∀ id ∈ c.archive.keys, id ∉ c.ids.free) ∧
      ∀ id ∈ c.live.keys ++ c.ids.free ++ c.archive.keys, ∀ noun, ¬ c.ids.Counts noun id := by
  have hdealt : ∀ m n : Nat, c.ids.nextCell + m ≤ IntRange.bits32.high →
      IntRange.bits32.low ≤ c.ids.nextWire - n →
      (c.live.keys ++ c.ids.free ++ (c.ids.newCells m ++ c.ids.newWires n)).Nodup ∧
      ∀ id ∈ c.ids.free ++ (c.ids.newCells m ++ c.ids.newWires n), id ∉ c.archive.keys := by
    intro m n hcells hwires
    obtain ⟨spent, rest, hspent, hyields⟩ := IdPool.exists_yields hrange hcells hwires
    obtain ⟨honce, harchived⟩ := h.yields hlive hyields
    refine ⟨?_, fun id hid => harchived id ((hspent.append_right _).mem_iff.mpr hid)⟩
    rw [List.append_assoc]
    exact ((hspent.append_right _).append_left _).nodup_iff.mp honce
  -- it need not count on at all
  have hcells : c.ids.nextCell + (0 : Nat) ≤ IntRange.bits32.high := by
    rw [Int.ofNat_zero, Int.add_zero]
    exact (IntRange.contains_iff.mp hrange.1).2
  have hwires : IntRange.bits32.low ≤ c.ids.nextWire - (0 : Nat) := by
    rw [Int.ofNat_zero, Int.sub_zero]
    exact (IntRange.contains_iff.mp hrange.2).1
  refine ⟨?_, ?_, ?_, ?_⟩
  · intro id hcell hwire
    obtain ⟨m, hm, hnewCell⟩ := IdPool.exists_mem_newCells hcell
    obtain ⟨n, hn, hnewWire⟩ := IdPool.exists_mem_newWires hwire
    have hboth := (List.nodup_append.mp (List.nodup_append.mp (hdealt m n hm hn).1).2.1).2.2
    exact hboth id hnewCell id hnewWire rfl
  · exact (List.nodup_append.mp (hdealt 0 0 hcells hwires).1).1
  · exact fun id harchive hfree => (hdealt 0 0 hcells hwires).2 id (List.mem_append_left _ hfree) harchive
  · -- an id that a counter comes to is handed out in the end
    intro id hid noun hcounts
    obtain ⟨m, n, hm, hn, hmem⟩ : ∃ m n : Nat, c.ids.nextCell + m ≤ IntRange.bits32.high ∧
        IntRange.bits32.low ≤ c.ids.nextWire - n ∧ id ∈ c.ids.newCells m ++ c.ids.newWires n := by
      cases noun with
      | cell =>
        obtain ⟨m, hm, hnew⟩ := IdPool.exists_mem_newCells hcounts
        exact ⟨m, 0, hm, hwires, List.mem_append_left _ hnew⟩
      | wire =>
        obtain ⟨n, hn, hnew⟩ := IdPool.exists_mem_newWires hcounts
        exact ⟨0, n, hcells, hn, List.mem_append_right _ hnew⟩
    obtain ⟨honce, harchived⟩ := hdealt m n hm hn
    rcases List.mem_append.mp hid with hin | hin
    · exact (List.nodup_append.mp honce).2.2 id hin id hmem rfl
    · exact harchived id (List.mem_append_right _ hmem) hin

/-- Where creations never meet a row whatever is done, and none is both live and archived, the pool fits. -/
theorem NeverReuses.fits (h : c.NeverReuses) (hrange : c.ids.InRange) (hlive : ∃ cell, c.cell? p = some cell)
    (hapart : ∀ id ∈ c.archive.keys, id ∉ c.live.keys) : c.Fits := by
  obtain ⟨hcounters, -, harchived, hknown⟩ := h.spare hrange hlive
  -- a purge brings out the ids that are held
  obtain ⟨hcell, hwire, -⟩ := IdPool.counters_foldl_release c.ids.held { c.ids with held := [] }
  have hpurgedRange : c.ids.purge.2.InRange := by
    rw [IdPool.InRange, IdPool.purge, hcell, hwire]
    exact hrange
  have hpurged : ({ c with archive := .empty, ids := c.ids.purge.2 } : Circuit).NeverReuses :=
    h.later (.edited .now false .purge hpurgedRange)
  obtain ⟨-, honce, -, hheld⟩ := hpurged.spare hpurgedRange hlive
  have hfree : c.ids.purge.2.free.Perm (c.ids.held ++ c.ids.free) :=
    IdPool.free_foldl_release c.ids.held { c.ids with held := [] }
  refine ⟨hcounters, ?_, ?_, fun id hid => ⟨hapart id hid, harchived id hid⟩⟩
  · intro id hid noun hcounts
    rcases List.mem_append.mp hid with hid | hid
    · refine hknown id ?_ noun hcounts
      simp only [List.mem_append] at hid ⊢
      tauto
    · refine hheld id (by simp [hfree.mem_iff, hid]) noun ?_
      exact IdPool.counts_of_counters hcell.symm hwire.symm hcounts
  · rw [List.append_assoc]
    refine (List.Perm.nodup_iff ?_).mp honce
    exact (hfree.trans List.perm_append_comm).append_left c.live.keys

/-! ## Circuits that pass the check -/

/-- In a circuit that passes the check and has a row there is a cell under its own id. -/
theorem exists_cell_of_checkAll (hcheck : c.checkAll = .ok ()) (hrows : c.live.rows ≠ []) :
    ∃ id cell, c.cell? id = some cell := by
  obtain ⟨⟨key, row⟩, hrow⟩ := List.exists_mem_of_ne_nil _ hrows
  have hlisted : row.id ∈ c.cells.map (·.id.toId) ++ c.wires.map (·.id.toId) := by
    have hget := Table.get?_eq_some_iff.mpr hrow
    rcases row with cell | wire
    · have hmem := mem_cells_iff_exists.mpr ⟨⟨key.raw⟩, cell?_eq_some_iff.mpr hget⟩
      exact List.mem_append_left _ (List.mem_map.mpr ⟨cell, hmem, rfl⟩)
    · have hmem := mem_wires_iff_exists.mpr ⟨⟨key.raw⟩, wire?_eq_some_iff.mpr hget⟩
      exact List.mem_append_right _ (List.mem_map.mpr ⟨wire, hmem, rfl⟩)
  have hok := forM_members hcheck row.id hlisted
  -- the row it is checked as is a cell, or a wire that starts at one
  cases hfound : c.live.get? row.id with
  | none =>
    rw [check, Circuit.row, hfound] at hok
    cases hok
  | some found =>
    rcases found with cell | wire
    · exact ⟨⟨row.id.raw⟩, cell, cell?_eq_some_iff.mpr hfound⟩
    · have hlook : c.row row.id = .ok (.wire wire) := by rw [Circuit.row, hfound]
      cases hdefect : c.wireDefect? wire with
      | some defect =>
        rw [check_of_defect hlook hdefect] at hok
        cases hok
      | none =>
        obtain ⟨⟨source, hsource, -⟩, -⟩ := wireDefect?_eq_none_iff.mp hdefect
        exact ⟨wire.source, source, cell_ok_iff.mp hsource⟩

theorem inRange_of_ofJson {text : String} {c : Circuit} (h : Circuit.ofJson text = .ok c) : c.ids.InRange := by
  have hproper := Circuit.proper (Json.Codec.gives_of_read h)
  exact ⟨hproper.ids.nextCell, hproper.ids.nextWire⟩

/-- A circuit that was read and passes the check, and in which no row is both live and archived, can be worked on
as far as the range of its counters goes without an id being reused while it is in use, exactly if it is empty or
its pool fits. -/
theorem neverReuses_iff_fits {text : String} {c : Circuit} (hread : Circuit.ofJson text = .ok c)
    (hcheck : c.checkAll = .ok ()) (hapart : ∀ id, c.contains id = true → c.isArchived id = false) :
    c.NeverReuses ↔ c.live.rows = [] ∨ c.Fits := by
  constructor
  · intro h
    by_cases hrows : c.live.rows = []
    · exact Or.inl hrows
    · obtain ⟨id, cell, hcell⟩ := exists_cell_of_checkAll hcheck hrows
      refine Or.inr (h.fits (inRange_of_ofJson hread) ⟨cell, hcell⟩ fun key harchived hlive => ?_)
      exact not_mem_keys_of_contains (hapart key (Table.contains_iff.mpr hlive)) harchived
  · rintro (hrows | hfits)
    · exact neverReuses_of_rowless (by rw [Table.keys, hrows]; rfl)
    · exact hfits.neverReuses

/-- A circuit whose pool has not heard of its second cell. -/
def overdrawn : Circuit where
  live := .ofList
    [(⟨0⟩, .cell { Cell.fresh .root none .relay .origin with children := [⟨1⟩] }),
      (⟨1⟩, .cell (.fresh ⟨1⟩ (some .root) .recording .origin))]
  archive := .empty
  ids := { IdPool.empty with nextCell := 1 }

/-- The same rows, and an archived wire between them. The pool knows of all these, and gave out two cells that are
gone. It can count one more cell, and no wire. -/
def covered : Circuit where
  live := overdrawn.live
  archive := .ofList [(⟨-2147483648⟩, .wire ⟨⟨-2147483648⟩, .root, ⟨1⟩, .any, .now⟩)]
  ids := ⟨2147483646, -2147483648, [⟨3⟩, ⟨2⟩], [], [⟨-2147483648⟩]⟩

theorem neverReuses_covered :
    Circuit.ofJson covered.toJson = .ok covered ∧ covered.checkAll = .ok () ∧
      (∀ id, covered.contains id = true → covered.isArchived id = false) ∧ covered.NeverReuses := by
  have hproper : covered.Proper := by decide +kernel
  have hlegible : covered.Legible := by decide +kernel
  have hread := (Circuit.faithful hproper hlegible).read_text
  have hcheck : covered.checkAll = .ok () := by decide
  have hapart : ∀ id, covered.contains id = true → covered.isArchived id = false := by
    intro id hlive
    have hkeys : ∀ id ∈ covered.live.keys, covered.isArchived id = false := by decide
    exact hkeys id (Table.contains_iff.mp hlive)
  have hfits : covered.Fits := by
    refine ⟨?_, ?_, by decide, by decide⟩
    · intro id _ hwire
      exact absurd hwire.2 (Int.not_lt.mpr hwire.1)
    · -- the ids that are known lie below the next cell, and no wire is left to count
      have hknown : ∀ id ∈ covered.live.keys ++ covered.archive.keys ++ covered.ids.free ++ covered.ids.held,
          id.raw < covered.ids.nextCell := by decide
      intro id hid noun hcounts
      cases noun with
      | cell => exact absurd (hknown id hid) (Int.not_lt.mpr hcounts.1)
      | wire => exact absurd hcounts.2 (Int.not_lt.mpr hcounts.1)
  exact ⟨hread, hcheck, hapart, (neverReuses_iff_fits hread hcheck hapart).mpr (Or.inr hfits)⟩

/-- A circuit can be read and pass its check, and the next cell that is asked for, with a check, takes the place
of one that is there. -/
theorem overdrawn_reuses :
    Circuit.ofJson overdrawn.toJson = .ok overdrawn ∧ overdrawn.checkAll = .ok () ∧
      overdrawn.contains ⟨1⟩ = true ∧
      (createCell true .root .relay .origin).read? (fun id d => (id, d.cell ⟨1⟩)) overdrawn =
        some (⟨1⟩, .ok (.fresh ⟨1⟩ (some .root) .relay .origin)) ∧
      ¬ overdrawn.NeverReuses := by
  have hproper : overdrawn.Proper := by decide +kernel
  have hlegible : overdrawn.Legible := by decide +kernel
  refine ⟨(Circuit.faithful hproper hlegible).read_text, by decide, by decide, by decide, fun hnever => ?_⟩
  have hfresh := (hnever overdrawn .now).cell true .root .relay .origin ⟨1⟩ _ rfl (by decide)
  cases hfresh.1

end Circuit

end PulseCircuit
