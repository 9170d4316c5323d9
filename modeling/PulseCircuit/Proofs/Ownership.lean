import Mathlib.Data.List.Nodup
import PulseCircuit.Proofs.Lookup

/-!
# Who owns an id

An id that was handed out belongs to a live row, to an archived row or to the pool, and to one of
them only. `Owned` says so by counting: the three together have each id between the two counters
once, and no other id at all.

* `IdPool.takeCell_cases`, `IdPool.takeWire_cases`: where a handed out id comes from;
* `IdPool.Hands`, `Owned.put`: an id is handed out and a row put under it;
* `Owned.retired`, `Owned.dropAll`, `Owned.purge`: ids are given back, or held and given back later;
* `Owned.of_same_nouns`: whatever leaves the kinds of all live rows alone changes no owner.
-/

namespace PulseCircuit

/-! ## Counting keys -/

theorem Table.count_keys {κ α : Type} [DecidableEq κ] (t : Table κ α) (k : κ) :
    t.keys.count k = (t.contains k).toNat := by
  by_cases hk : k ∈ t.keys
  · rw [Table.contains_iff.mpr hk]
    exact t.nodup.count.trans (if_pos hk)
  · have hnot : t.contains k = false := by
      rw [Bool.eq_false_iff]
      exact fun h => hk (Table.contains_iff.mp h)
    rw [hnot]
    exact List.count_eq_zero_of_not_mem hk

/-! ## The pool -/

namespace IdPool

/-- The ids that were given back and not handed out again, of cells and of wires. -/
def free (pool : IdPool) : List Id :=
  pool.freeCells.map CellId.toId ++ pool.freeWires.map WireId.toId

/-- The counters are on their sides of zero, and so are the ids that were given back. -/
structure Sided (pool : IdPool) : Prop where
  nextCell : 0 ≤ pool.nextCell
  nextWire : pool.nextWire < 0
  cells : ∀ id ∈ pool.freeCells, 0 ≤ id.raw
  wires : ∀ id ∈ pool.freeWires, id.raw < 0

/-- The next cell id is the one given back last, or a new one if none is left. -/
theorem takeCell_cases (pool : IdPool) :
    (∃ ids id, pool.freeCells = ids ++ [id] ∧
      pool.takeCell = (id, { pool with freeCells := ids })) ∨
    (pool.freeCells = [] ∧
      pool.takeCell = (⟨pool.nextCell⟩, { pool with nextCell := pool.nextCell + 1 })) := by
  rcases List.eq_nil_or_concat pool.freeCells with hnil | ⟨ids, id, hids⟩
  · exact Or.inr ⟨hnil, by simp [takeCell, hnil]⟩
  · rw [List.concat_eq_append] at hids
    exact Or.inl ⟨ids, id, hids, by simp [takeCell, hids]⟩

/-- The next wire id is the one given back last, or a new one if none is left. -/
theorem takeWire_cases (pool : IdPool) :
    (∃ ids id, pool.freeWires = ids ++ [id] ∧
      pool.takeWire = (id, { pool with freeWires := ids })) ∨
    (pool.freeWires = [] ∧
      pool.takeWire = (⟨pool.nextWire⟩, { pool with nextWire := pool.nextWire - 1 })) := by
  rcases List.eq_nil_or_concat pool.freeWires with hnil | ⟨ids, id, hids⟩
  · exact Or.inr ⟨hnil, by simp [takeWire, hnil]⟩
  · rw [List.concat_eq_append] at hids
    exact Or.inl ⟨ids, id, hids, by simp [takeWire, hids]⟩

/-- An id given back joins the free ones of its kind. -/
theorem release_cases (pool : IdPool) (id : Id) :
    (∃ cell : CellId, cell.toId = id ∧ 0 ≤ cell.raw ∧
      pool.release id = { pool with freeCells := pool.freeCells ++ [cell] }) ∨
    (∃ wire : WireId, wire.toId = id ∧ wire.raw < 0 ∧
      pool.release id = { pool with freeWires := pool.freeWires ++ [wire] }) := by
  by_cases hraw : 0 ≤ id.raw
  · exact Or.inl ⟨⟨id.raw⟩, rfl, hraw, @release_cell pool ⟨id.raw⟩ hraw⟩
  · have hneg : id.raw < 0 := by omega
    exact Or.inr ⟨⟨id.raw⟩, rfl, hneg, @release_wire pool ⟨id.raw⟩ hneg⟩

theorem free_release (pool : IdPool) (id : Id) : (pool.release id).free.Perm (id :: pool.free) := by
  rcases pool.release_cases id with ⟨cell, rfl, -, hrel⟩ | ⟨wire, rfl, -, hrel⟩
  · rw [hrel]
    simp only [free, List.map_append, List.map_cons, List.map_nil, List.append_assoc]
    exact List.perm_middle
  · rw [hrel]
    simp only [free, List.map_append, List.map_cons, List.map_nil]
    rw [← List.append_assoc]
    exact List.perm_append_singleton _ _

theorem free_foldl_release (ids : List Id) (pool : IdPool) :
    (ids.foldl release pool).free.Perm (ids ++ pool.free) := by
  induction ids generalizing pool with
  | nil => exact List.Perm.refl _
  | cons id ids ih =>
    rw [List.foldl_cons]
    refine (ih _).trans ?_
    exact ((pool.free_release id).append_left ids).trans List.perm_middle

/-- Giving ids back does not touch the counters, and each comes to its own side. -/
theorem Sided.release {pool : IdPool} (h : pool.Sided) (id : Id) : (pool.release id).Sided := by
  rcases pool.release_cases id with ⟨cell, -, hraw, hrel⟩ | ⟨wire, -, hraw, hrel⟩
  · rw [hrel]
    refine ⟨h.nextCell, h.nextWire, fun x hx => ?_, h.wires⟩
    rcases List.mem_append.mp hx with hx | hx
    · exact h.cells x hx
    · rwa [List.mem_singleton.mp hx]
  · rw [hrel]
    refine ⟨h.nextCell, h.nextWire, h.cells, fun x hx => ?_⟩
    rcases List.mem_append.mp hx with hx | hx
    · exact h.wires x hx
    · rwa [List.mem_singleton.mp hx]

theorem counters_release (pool : IdPool) (id : Id) :
    (pool.release id).nextCell = pool.nextCell ∧ (pool.release id).nextWire = pool.nextWire ∧
      (pool.release id).held = pool.held := by
  rcases pool.release_cases id with ⟨cell, -, -, hrel⟩ | ⟨wire, -, -, hrel⟩ <;>
    rw [hrel] <;> exact ⟨rfl, rfl, rfl⟩

theorem Sided.foldl_release {pool : IdPool} (h : pool.Sided) (ids : List Id) :
    (ids.foldl IdPool.release pool).Sided := by
  induction ids generalizing pool with
  | nil => exact h
  | cons id ids ih => exact ih (h.release id)

theorem counters_foldl_release (ids : List Id) (pool : IdPool) :
    (ids.foldl release pool).nextCell = pool.nextCell ∧
      (ids.foldl release pool).nextWire = pool.nextWire ∧
      (ids.foldl release pool).held = pool.held := by
  induction ids generalizing pool with
  | nil => exact ⟨rfl, rfl, rfl⟩
  | cons id ids ih =>
    obtain ⟨hcell, hwire, hheld⟩ := pool.counters_release id
    rw [List.foldl_cons, ← hcell, ← hwire, ← hheld]
    exact ih _

/-- How often an id was handed out for the first time: once if it lies between the counters. -/
def minted (pool : IdPool) (id : Id) : Nat :=
  if pool.nextWire < id.raw ∧ id.raw < pool.nextCell then 1 else 0

theorem minted_le_one (pool : IdPool) (id : Id) : pool.minted id ≤ 1 := by
  unfold minted
  split <;> omega

/-- A pool hands out an id and `rest` is left of it: it had the id, or it counted on. -/
structure Hands (pool rest : IdPool) (id : Id) : Prop where
  balance : ∀ x, rest.minted x + pool.free.count x =
    pool.minted x + rest.free.count x + if x = id then 1 else 0
  held : rest.held = pool.held
  sided : rest.Sided

theorem Sided.takeCell {pool : IdPool} (h : pool.Sided) :
    0 ≤ pool.takeCell.1.raw ∧ pool.Hands pool.takeCell.2 pool.takeCell.1.toId := by
  rcases pool.takeCell_cases with ⟨ids, id, hids, htake⟩ | ⟨-, htake⟩
  · -- the id comes from the free ones, and the counters stand still
    have hmem : ∀ x ∈ ids ++ [id], 0 ≤ x.raw := hids ▸ h.cells
    rw [htake]
    refine ⟨hmem id (by simp), ⟨fun x => ?_, rfl, ⟨h.nextCell, h.nextWire, ?_, h.wires⟩⟩⟩
    · simp only [free, minted, hids, List.map_append, List.count_append, List.map_cons,
        List.map_nil, List.count_singleton, beq_iff_eq, @eq_comm _ _ x]
      omega
    · exact fun x hx => hmem x (List.mem_append_left _ hx)
  · have hcell := h.nextCell
    -- the counter moves over the id, and the free ones stay as they are
    have hwire := h.nextWire
    rw [htake]
    refine ⟨hcell, ⟨fun ⟨x⟩ => ?_, rfl, ⟨?_, hwire, h.cells, h.wires⟩⟩⟩
    · simp only [free, minted, CellId.toId, Id.mk.injEq]
      split <;> split <;> split <;> omega
    · show 0 ≤ pool.nextCell + 1
      omega

theorem Sided.takeWire {pool : IdPool} (h : pool.Sided) :
    pool.takeWire.1.raw < 0 ∧ pool.Hands pool.takeWire.2 pool.takeWire.1.toId := by
  rcases pool.takeWire_cases with ⟨ids, id, hids, htake⟩ | ⟨-, htake⟩
  · have hmem : ∀ x ∈ ids ++ [id], x.raw < 0 := hids ▸ h.wires
    rw [htake]
    refine ⟨hmem id (by simp), ⟨fun x => ?_, rfl, ⟨h.nextCell, h.nextWire, h.cells, ?_⟩⟩⟩
    · simp only [free, minted, hids, List.map_append, List.count_append, List.map_cons,
        List.map_nil, List.count_singleton, beq_iff_eq, @eq_comm _ _ x]
      omega
    · exact fun x hx => hmem x (List.mem_append_left _ hx)
  · have hcell := h.nextCell
    have hwire := h.nextWire
    rw [htake]
    refine ⟨hwire, ⟨fun ⟨x⟩ => ?_, rfl, ⟨hcell, ?_, h.cells, h.wires⟩⟩⟩
    · simp only [free, minted, WireId.toId, Id.mk.injEq]
      split <;> split <;> split <;> omega
    · show pool.nextWire - 1 < 0
      omega

end IdPool

/-! ## Owners -/

/-- What a row is, whatever its id says. -/
def Row.noun : Row → Noun
  | .cell _ => .cell
  | .wire _ => .wire

theorem Id.noun_eq_cell_iff {id : Id} : id.noun = .cell ↔ 0 ≤ id.raw := by
  by_cases hraw : 0 ≤ id.raw <;> simp [noun, isCell, hraw]

theorem Id.noun_eq_wire_iff {id : Id} : id.noun = .wire ↔ id.raw < 0 := by
  rw [← Int.not_le]
  by_cases hraw : 0 ≤ id.raw <;> simp [noun, isCell, hraw]

theorem CellId.noun_toId {id : CellId} (h : 0 ≤ id.raw) : id.toId.noun = .cell :=
  Id.noun_eq_cell_iff.mpr h

theorem WireId.noun_toId {id : WireId} (h : id.raw < 0) : id.toId.noun = .wire :=
  Id.noun_eq_wire_iff.mpr h

theorem Id.isCell_iff {id : Id} : id.isCell = true ↔ 0 ≤ id.raw := decide_eq_true_iff

theorem Id.isWire_iff {id : Id} : id.isWire = true ↔ id.raw < 0 := decide_eq_true_iff

/-- The rows of a table lie on the side of zero that belongs to what they are. -/
def Table.Sided (t : Table Id Row) : Prop := ∀ ⦃id row⦄, t.get? id = some row → row.noun = id.noun

namespace Circuit

/-- Each id that was handed out has one owner, and the pool holds the archived ids aside. -/
structure Owned (c : Circuit) : Prop where
  once : ∀ id, (c.live.contains id).toNat + (c.archive.contains id).toNat + c.ids.free.count id =
    c.ids.minted id
  held : c.ids.held = c.archive.keys
  pool : c.ids.Sided
  live : c.live.Sided
  archive : c.archive.Sided

namespace Owned

variable {c : Circuit}

theorem noun_eq_cell (h : c.Owned) {id : CellId} {cell : Cell} (hcell : c.cell? id = some cell) :
    id.toId.noun = .cell :=
  (h.live (cell?_eq_some_iff.mp hcell)).symm

theorem noun_eq_wire (h : c.Owned) {id : WireId} {wire : Wire} (hwire : c.wire? id = some wire) :
    id.toId.noun = .wire :=
  (h.live (wire?_eq_some_iff.mp hwire)).symm

/-- A row under the id of a cell is a cell. -/
theorem live_of_mem_keys (h : c.Owned) {id : CellId} (hnoun : id.toId.noun = .cell)
    (hmem : id.toId ∈ c.live.keys) : ∃ cell, c.cell? id = some cell := by
  obtain ⟨row, hrow⟩ := Option.isSome_iff_exists.mp (Table.mem_keys_iff.mp hmem)
  rcases row with cell | wire
  · exact ⟨cell, cell?_eq_some_iff.mpr hrow⟩
  · have hwire := h.live hrow
    rw [hnoun] at hwire
    cases hwire

/-- A row under the id of a wire is a wire. -/
theorem wire_of_mem_keys (h : c.Owned) {id : WireId} (hnoun : id.toId.noun = .wire)
    (hmem : id.toId ∈ c.live.keys) : ∃ wire, c.wire? id = some wire := by
  obtain ⟨row, hrow⟩ := Option.isSome_iff_exists.mp (Table.mem_keys_iff.mp hmem)
  rcases row with cell | wire
  · have hcell := h.live hrow
    rw [hnoun] at hcell
    cases hcell
  · exact ⟨wire, wire?_eq_some_iff.mpr hrow⟩

/-- Looking for a cell fails only because there is none. -/
theorem cell_error (h : c.Owned) {id : CellId} (hnoun : id.toId.noun = .cell) {fault : Fault}
    (hcell : c.cell id = .error fault) : fault = .notFound id := by
  unfold Circuit.cell at hcell
  split at hcell
  next => cases hcell
  next wire hrow =>
    have hwire := h.live hrow
    rw [hnoun] at hwire
    cases hwire
  next =>
    cases hcell
    rfl

/-- An id about to be handed out names no live and no archived row. -/
theorem absent_of_hands (h : c.Owned) {rest : IdPool} {id : Id} (hhands : c.ids.Hands rest id) :
    c.live.contains id = false ∧ c.archive.contains id = false := by
  have honce := h.once id
  have hbalance := hhands.balance id
  have hle := rest.minted_le_one id
  rw [if_pos rfl] at hbalance
  -- the id is minted once at most, and handing it out is that once
  cases hlive : c.live.contains id <;> cases harchive : c.archive.contains id <;>
    simp only [hlive, harchive, Bool.toNat_true, Bool.toNat_false] at honce <;>
    first | exact ⟨rfl, rfl⟩ | omega

/-- Owners are a matter of keys, so rows may change in all but their kinds. -/
theorem of_same_nouns {d : Circuit} (h : c.Owned) (hids : d.ids = c.ids)
    (harchive : d.archive = c.archive)
    (hlive : ∀ id, (d.live.get? id).map Row.noun = (c.live.get? id).map Row.noun) : d.Owned where
  once := by
    intro id
    have hsame : d.live.contains id = c.live.contains id := by
      simpa [Table.contains] using congrArg Option.isSome (hlive id)
    rw [hids, harchive, hsame]
    exact h.once id
  held := by rw [hids, harchive]; exact h.held
  pool := hids ▸ h.pool
  live := by
    intro id row hrow
    have hnoun := hlive id
    rw [hrow] at hnoun
    obtain ⟨old, hold, hsame⟩ := Option.map_eq_some_iff.mp hnoun.symm
    rw [← hsame]
    exact h.live hold
  archive := harchive ▸ h.archive

theorem changeCell (h : c.Owned) (id : CellId) (change : Cell → Cell) :
    (c.changeCell id change).Owned := by
  refine h.of_same_nouns ?_ ?_ fun k => ?_
  · unfold Circuit.changeCell
    split <;> rfl
  · unfold Circuit.changeCell
    split <;> rfl
  · rw [get?_changeCell]
    split
    next hk =>
      obtain ⟨cell, hcell⟩ := Option.isSome_iff_exists.mp hk.2
      rw [hk.1, hcell, cell?_eq_some_iff.mp hcell]
      rfl
    next => rfl

theorem changeWire (h : c.Owned) (id : WireId) (change : Wire → Wire) :
    (c.changeWire id change).Owned := by
  refine h.of_same_nouns ?_ ?_ fun k => ?_
  · unfold Circuit.changeWire
    split <;> rfl
  · unfold Circuit.changeWire
    split <;> rfl
  · rw [get?_changeWire]
    split
    next hk =>
      obtain ⟨wire, hwire⟩ := Option.isSome_iff_exists.mp hk.2
      rw [hk.1, hwire, wire?_eq_some_iff.mp hwire]
      rfl
    next => rfl

theorem mapCells (h : c.Owned) (change : Cell → Cell) : (c.mapCells change).Owned := by
  refine h.of_same_nouns rfl rfl fun id => ?_
  rw [Circuit.mapCells, Table.get?_map]
  rcases c.live.get? id with - | (cell | wire) <;> rfl

/-- An id is handed out and a row put under it. -/
theorem put (h : c.Owned) {rest : IdPool} {id : Id} (hhands : c.ids.Hands rest id) {row : Row}
    (hnoun : row.noun = id.noun) : ({ c with ids := rest }.put id row).Owned where
  once := by
    intro x
    obtain ⟨hlive, harchive⟩ := h.absent_of_hands hhands
    have honce := h.once x
    have hbalance := hhands.balance x
    have hput : ({ c with ids := rest }.put id row).live.contains x =
        if x = id then true else c.live.contains x := by
      rw [Table.contains, get?_put]
      split <;> rfl
    show _ + (c.archive.contains x).toNat + rest.free.count x = rest.minted x
    rw [hput]
    -- the id goes from the pool or the counter to the row, and no other id moves
    by_cases hx : x = id
    · subst hx
      simp only [hlive, harchive, if_true, Bool.toNat_true, Bool.toNat_false] at *
      omega
    · simp only [hx, if_false] at *
      omega
  held := hhands.held.trans h.held
  pool := hhands.sided
  live := by
    intro x other hother
    rw [get?_put] at hother
    split at hother
    next hx =>
      cases hother
      rw [hx, hnoun]
    next => exact h.live hother
  archive := h.archive

/-- A removed row leaves its id to the pool, or takes it along to the archive. -/
theorem retired (h : c.Owned) (removal : Removal) (id : Id) : (c.retired removal id).Owned := by
  unfold Circuit.retired
  cases hrow : c.live.get? id with
  | none => exact h
  | some row =>
    have hmem : c.live.contains id = true := by simp [Table.contains, hrow]
    have herase : ∀ x, ((c.live.erase id).contains x) = if x = id then false else
        c.live.contains x := by
      intro x
      rw [Table.contains, Table.get?_erase]
      split <;> rfl
    have hsided : (c.live.erase id).Sided := by
      intro x other hother
      rw [Table.get?_erase] at hother
      split at hother
      next => cases hother
      next => exact h.live hother
    cases removal with
    | delete =>
      obtain ⟨hcell, hwire, hheld⟩ := c.ids.counters_release id
      refine ⟨fun x => ?_, hheld.trans h.held, h.pool.release id, hsided, h.archive⟩
      have honce := h.once x
      show ((c.live.erase id).contains x).toNat + (c.archive.contains x).toNat +
        (c.ids.release id).free.count x = (c.ids.release id).minted x
      rw [herase, (c.ids.free_release id).count_eq, List.count_cons]
      simp only [IdPool.minted, hcell, hwire] at *
      by_cases hx : x = id
      · subst hx
        simp only [hmem, if_true, Bool.toNat_true, Bool.toNat_false, beq_self_eq_true] at *
        omega
      · simp only [hx, Ne.symm hx, beq_iff_eq, if_false] at *
        omega
    | archive =>
      have honce := h.once id
      have hle := c.ids.minted_le_one id
      -- the row is live, so it is not in the archive, and is added there last
      have hnot : c.archive.contains id = false := by
        by_contra harchive
        simp only [hmem, eq_true_of_ne_false harchive, Bool.toNat_true] at honce
        omega
      have hkeys : id ∉ c.archive.keys := fun hk => by
        rw [Table.contains_iff.mpr hk] at hnot
        cases hnot
      have hinsert : ∀ x, (c.archive.insert id row).contains x =
          if x = id then true else c.archive.contains x := by
        intro x
        rw [Table.contains, Table.get?_insert]
        split <;> rfl
      refine ⟨fun x => ?_, ?_, ⟨h.pool.nextCell, h.pool.nextWire, h.pool.cells, h.pool.wires⟩,
        hsided, ?_⟩
      · have honce := h.once x
        show ((c.live.erase id).contains x).toNat + ((c.archive.insert id row).contains x).toNat +
          c.ids.free.count x = c.ids.minted x
        rw [herase, hinsert]
        by_cases hx : x = id
        · subst hx
          simp only [hmem, hnot, if_true, Bool.toNat_true, Bool.toNat_false] at *
          omega
        · simp only [hx, if_false] at *
          omega
      · show c.ids.held ++ [id] = (c.archive.insert id row).keys
        rw [Table.keys_insert_of_not_mem row hkeys, h.held]
      · intro x other hother
        rw [Table.get?_insert] at hother
        split at hother
        next hx =>
          cases hother
          rw [hx]
          exact h.live hrow
        next => exact h.archive hother

theorem dropAll (h : c.Owned) (removal : Removal) (ids : List CellId) :
    (c.dropAll removal ids).Owned := by
  induction ids generalizing c with
  | nil => exact h
  | cons id ids ih => exact ih (h.retired removal id.toId)

/-- A purge gives the ids of all archived rows back to the pool. -/
theorem purge (h : c.Owned) :
    ({ c with archive := .empty, ids := c.ids.purge.2 } : Circuit).Owned where
  once := by
    intro id
    have honce := h.once id
    obtain ⟨hcell, hwire, -⟩ := IdPool.counters_foldl_release c.ids.held { c.ids with held := [] }
    have hfree := (IdPool.free_foldl_release c.ids.held { c.ids with held := [] }).count_eq id
    -- the held ids are those of the archive, which is empty afterwards
    rw [List.count_append, h.held, Table.count_keys] at hfree
    rw [← h.held] at hfree
    simp only [IdPool.minted] at honce ⊢
    show _ + 0 + (c.ids.held.foldl IdPool.release { c.ids with held := [] }).free.count id =
      if (c.ids.held.foldl IdPool.release { c.ids with held := [] }).nextWire < id.raw ∧
        id.raw < (c.ids.held.foldl IdPool.release { c.ids with held := [] }).nextCell then 1 else 0
    rw [hcell, hwire, hfree, ← honce]
    show _ + 0 + ((c.archive.contains id).toNat + c.ids.free.count id) = _
    omega
  held := (IdPool.counters_foldl_release c.ids.held { c.ids with held := [] }).2.2
  pool := by
    refine IdPool.Sided.foldl_release ?_ c.ids.held
    exact ⟨h.pool.nextCell, h.pool.nextWire, h.pool.cells, h.pool.wires⟩
  live := h.live
  archive := by
    intro id row hrow
    cases hrow

end Owned

end Circuit

/-! ## The ids of each kind -/

/-- The ids under which a table has cells. -/
def Table.cellIds (t : Table Id Row) : List CellId :=
  t.rows.filterMap fun
    | (id, .cell _) => some ⟨id.raw⟩
    | (_, .wire _) => none

/-- The ids under which a table has wires. -/
def Table.wireIds (t : Table Id Row) : List WireId :=
  t.rows.filterMap fun
    | (_, .cell _) => none
    | (id, .wire _) => some ⟨id.raw⟩

theorem Table.Sided.noun_of_mem {t : Table Id Row} (h : t.Sided) {row : Id × Row}
    (hrow : row ∈ t.rows) : row.2.noun = row.1.noun :=
  h (Table.get?_eq_some_iff.mpr hrow)

theorem Table.Sided.map_cellIds {t : Table Id Row} (h : t.Sided) :
    t.cellIds.map CellId.toId = t.keys.filter Id.isCell := by
  have hnoun : ∀ row ∈ t.rows, row.2.noun = row.1.noun := fun row => h.noun_of_mem
  unfold Table.cellIds Table.keys
  -- of the table only the rows matter here, so the induction is on them
  generalize t.rows = rows at hnoun
  induction rows with
  | nil => rfl
  | cons row rows ih =>
    have hrest := ih fun other hother => hnoun other (List.mem_cons_of_mem _ hother)
    have hrow := hnoun row List.mem_cons_self
    obtain ⟨id, cell | wire⟩ := row <;> cases hside : id.isCell <;>
      simp_all [Row.noun, Id.noun, CellId.toId]

theorem Table.Sided.map_wireIds {t : Table Id Row} (h : t.Sided) :
    t.wireIds.map WireId.toId = t.keys.filter Id.isWire := by
  have hnoun : ∀ row ∈ t.rows, row.2.noun = row.1.noun := fun row => h.noun_of_mem
  unfold Table.wireIds Table.keys
  generalize t.rows = rows at hnoun
  induction rows with
  | nil => rfl
  | cons row rows ih =>
    have hrest := ih fun other hother => hnoun other (List.mem_cons_of_mem _ hother)
    have hrow := hnoun row List.mem_cons_self
    obtain ⟨id, cell | wire⟩ := row <;> cases hside : id.isCell <;>
      simp_all [Row.noun, Id.noun, WireId.toId, Id.isWire_eq_not_isCell]

namespace IdPool.Sided

variable {pool : IdPool}

theorem filter_isCell (h : pool.Sided) :
    pool.free.filter Id.isCell = pool.freeCells.map CellId.toId := by
  rw [free, List.filter_append, List.filter_eq_self.mpr, List.filter_eq_nil_iff.mpr,
    List.append_nil]
  · intro id hid
    obtain ⟨wire, hwire, rfl⟩ := List.mem_map.mp hid
    rw [Id.isCell_iff]
    exact Int.not_le.mpr (h.wires wire hwire)
  · intro id hid
    obtain ⟨cell, hcell, rfl⟩ := List.mem_map.mp hid
    exact Id.isCell_iff.mpr (h.cells cell hcell)

theorem filter_isWire (h : pool.Sided) :
    pool.free.filter Id.isWire = pool.freeWires.map WireId.toId := by
  rw [free, List.filter_append, List.filter_eq_nil_iff.mpr, List.filter_eq_self.mpr,
    List.nil_append]
  · intro id hid
    obtain ⟨wire, hwire, rfl⟩ := List.mem_map.mp hid
    exact Id.isWire_iff.mpr (h.wires wire hwire)
  · intro id hid
    obtain ⟨cell, hcell, rfl⟩ := List.mem_map.mp hid
    rw [Id.isWire_iff]
    exact Int.not_lt.mpr (h.cells cell hcell)

end IdPool.Sided

namespace Circuit

/-- The live ids, the archived ids and the free ids of each kind are all the ids of that kind that
were handed out, each of them once. -/
structure OneOwner (c : Circuit) : Prop where
  cells_nodup : (c.live.cellIds ++ c.archive.cellIds ++ c.ids.freeCells).Nodup
  mem_cells_iff : ∀ id, id ∈ c.live.cellIds ++ c.archive.cellIds ++ c.ids.freeCells ↔
    0 ≤ id.raw ∧ id.raw < c.ids.nextCell
  wires_nodup : (c.live.wireIds ++ c.archive.wireIds ++ c.ids.freeWires).Nodup
  mem_wires_iff : ∀ id, id ∈ c.live.wireIds ++ c.archive.wireIds ++ c.ids.freeWires ↔
    c.ids.nextWire < id.raw ∧ id.raw < 0
  held : c.ids.held = c.archive.keys

namespace Owned

variable {c : Circuit}

theorem count_owned (h : c.Owned) (id : Id) :
    (c.live.keys ++ c.archive.keys ++ c.ids.free).count id = c.ids.minted id := by
  rw [List.count_append, List.count_append, Table.count_keys, Table.count_keys]
  exact h.once id

theorem nodup_owned (h : c.Owned) : (c.live.keys ++ c.archive.keys ++ c.ids.free).Nodup := by
  rw [List.nodup_iff_count]
  intro id
  rw [h.count_owned]
  exact c.ids.minted_le_one id

theorem mem_owned_iff (h : c.Owned) {id : Id} :
    id ∈ c.live.keys ++ c.archive.keys ++ c.ids.free ↔
      c.ids.nextWire < id.raw ∧ id.raw < c.ids.nextCell := by
  rw [← List.count_pos_iff, h.count_owned, IdPool.minted]
  split <;> simp_all

theorem map_cells (h : c.Owned) :
    (c.live.cellIds ++ c.archive.cellIds ++ c.ids.freeCells).map CellId.toId =
      (c.live.keys ++ c.archive.keys ++ c.ids.free).filter Id.isCell := by
  rw [List.map_append, List.map_append, h.live.map_cellIds, h.archive.map_cellIds,
    List.filter_append, List.filter_append, h.pool.filter_isCell]

theorem map_wires (h : c.Owned) :
    (c.live.wireIds ++ c.archive.wireIds ++ c.ids.freeWires).map WireId.toId =
      (c.live.keys ++ c.archive.keys ++ c.ids.free).filter Id.isWire := by
  rw [List.map_append, List.map_append, h.live.map_wireIds, h.archive.map_wireIds,
    List.filter_append, List.filter_append, h.pool.filter_isWire]

theorem oneOwner (h : c.Owned) : c.OneOwner where
  cells_nodup := List.Nodup.of_map CellId.toId (h.map_cells ▸ h.nodup_owned.filter _)
  mem_cells_iff := by
    intro id
    have hmem : id ∈ c.live.cellIds ++ c.archive.cellIds ++ c.ids.freeCells ↔
        id.toId ∈ (c.live.cellIds ++ c.archive.cellIds ++ c.ids.freeCells).map CellId.toId :=
      mem_map_toId.symm
    have hside := h.pool.nextWire
    rw [hmem, h.map_cells, List.mem_filter, h.mem_owned_iff, Id.isCell_iff]
    simp only [CellId.toId]
    omega
  wires_nodup := List.Nodup.of_map WireId.toId (h.map_wires ▸ h.nodup_owned.filter _)
  mem_wires_iff := by
    intro id
    have hmem : id ∈ c.live.wireIds ++ c.archive.wireIds ++ c.ids.freeWires ↔
        id.toId ∈ (c.live.wireIds ++ c.archive.wireIds ++ c.ids.freeWires).map WireId.toId := by
      simp only [List.mem_map, WireId.toId_inj, exists_eq_right]
    have hside := h.pool.nextCell
    rw [hmem, h.map_wires, List.mem_filter, h.mem_owned_iff, Id.isWire_iff]
    simp only [WireId.toId]
    omega
  held := h.held

end Owned

end Circuit

end PulseCircuit
