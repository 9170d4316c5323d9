import PulseCircuit.Proofs.Ascent
import PulseCircuit.Proofs.Reachable

/-!
# Pools that fit

A circuit that was built by edits hands out no id that is in use, because its pool and its tables have moved
together from the start. For any other circuit it is enough that the two fit: what is known lies where the counters
do not come to, and what the pool may hand out lies in no table and waits once. Edits keep the fit whatever the
rows look like, since all they do to ids is to hand them out, to give them back and to hold them.

All this is said of runs in which the counters stay in range. At the end of its range a counter comes to no further
id, so what lies there, or beyond, is safe from it.

* `IdPool.Counts`, `IdPool.Dealt`: the ids a pool comes to by counting, and what handing one out does;
* `Circuit.CreatesAnew`, `Circuit.NeverReuses`: what is asked of creations, now and whatever is done before;
* `Circuit.Fits`, `Fits.later`: the pool fits the tables, and goes on to fit them;
* `Fits.neverReuses`: so creations never touch a row or an archived id.
-/

namespace PulseCircuit

/-! ## Dealing ids -/

namespace IdPool

/-- The ids a counter moves over while it stays in range: all from where it stands but the last of the range. -/
def Counts (pool : IdPool) : Noun → Id → Prop
  | .cell, id => pool.nextCell ≤ id.raw ∧ id.raw < IntRange.bits32.high
  | .wire, id => id.raw ≤ pool.nextWire ∧ IntRange.bits32.low < id.raw

/-- What comes of a pool that hands out an id: the id was given back before, or a counter moves over it. -/
inductive Dealt (pool : IdPool) (id : Id) (rest : IdPool) : Prop
  | again (hfree : pool.free.Perm (id :: rest.free)) (hcell : rest.nextCell = pool.nextCell)
    (hwire : rest.nextWire = pool.nextWire) (hheld : rest.held = pool.held)
  | anew (noun : Noun) (hfree : rest.free = pool.free) (hheld : rest.held = pool.held)
    (hcounted : pool.Counts noun id) (hpast : ¬ rest.Counts noun id)
    (hless : ∀ noun x, rest.Counts noun x → pool.Counts noun x)

theorem counts_of_counters {pool rest : IdPool} (hcell : rest.nextCell = pool.nextCell)
    (hwire : rest.nextWire = pool.nextWire) {noun : Noun} {id : Id} (h : rest.Counts noun id) :
    pool.Counts noun id := by
  cases noun with
  | cell => exact ⟨hcell ▸ h.1, h.2⟩
  | wire => exact ⟨hwire ▸ h.1, h.2⟩

theorem dealt_takeCell {pool : IdPool} (hrange : pool.takeCell.2.InRange) :
    pool.Dealt pool.takeCell.1 pool.takeCell.2 := by
  rcases pool.takeCell_cases with ⟨ids, id, hids, htake⟩ | ⟨-, htake⟩
  · rw [htake]
    refine .again ?_ rfl rfl rfl
    simp only [free, hids, List.map_append, List.map_cons, List.map_nil, List.append_assoc]
    exact List.perm_middle
  · rw [htake] at hrange ⊢
    have hnext : pool.nextCell + 1 ≤ IntRange.bits32.high := (IntRange.contains_iff.mp hrange.1).2
    refine .anew .cell rfl rfl ⟨Int.le_refl _, Int.lt_of_add_one_le hnext⟩ ?_ fun noun x hx => ?_
    · exact fun hcounts => Int.not_le.mpr (Int.lt_succ pool.nextCell) hcounts.1
    · cases noun with
      | cell => exact ⟨Int.le_trans (Int.le_add_one (Int.le_refl _)) hx.1, hx.2⟩
      | wire => exact hx

theorem dealt_takeWire {pool : IdPool} (hrange : pool.takeWire.2.InRange) :
    pool.Dealt pool.takeWire.1 pool.takeWire.2 := by
  rcases pool.takeWire_cases with ⟨ids, id, hids, htake⟩ | ⟨-, htake⟩
  · rw [htake]
    refine .again ?_ rfl rfl rfl
    simp only [free, hids, List.map_append, List.map_cons, List.map_nil, ← List.append_assoc]
    exact List.perm_append_singleton _ _
  · rw [htake] at hrange ⊢
    have hnext : IntRange.bits32.low ≤ pool.nextWire - 1 := (IntRange.contains_iff.mp hrange.2).1
    refine .anew .wire rfl rfl ⟨Int.le_refl _, Int.lt_of_le_sub_one hnext⟩ ?_ fun noun x hx => ?_
    · exact fun hcounts => Int.not_le.mpr (Int.sub_one_lt_iff.mpr (Int.le_refl _)) hcounts.1
    · cases noun with
      | cell => exact hx
      | wire => exact ⟨Int.le_trans hx.1 (Int.sub_le_self _ Int.one_nonneg), hx.2⟩

end IdPool

/-- The row is what the old one was, but for links that were added to a cell. -/
def Row.Extends (new old : Row) : Prop :=
  match old, new with
  | .cell old, .cell new => ∃ children inputs outputs, new = { old with
      children := old.children ++ children
      inputs := old.inputs ++ inputs
      outputs := old.outputs ++ outputs }
  | .wire old, .wire new => new = old
  | _, _ => False

theorem Row.extends_refl (row : Row) : row.Extends row := by
  rcases row with cell | wire
  · exact ⟨[], [], [], by simp⟩
  · exact rfl

theorem Row.Extends.trans {new mid old : Row} (h : new.Extends mid) (h' : mid.Extends old) :
    new.Extends old := by
  rcases old with old | old <;> rcases mid with mid | mid <;> rcases new with new | new
  all_goals first | exact h.elim | exact h'.elim | skip
  · obtain ⟨children, inputs, outputs, rfl⟩ := h'
    obtain ⟨children', inputs', outputs', rfl⟩ := h
    exact ⟨children ++ children', inputs ++ inputs', outputs ++ outputs', by simp⟩
  · exact Eq.trans h h'

namespace Circuit

open Edit Running

variable {c d : Circuit}

/-! ## What is asked of creations -/

/-- Every row lies where it lay, with links added at most. -/
def Extends (d c : Circuit) : Prop :=
  ∀ id old, c.live.get? id = some old → ∃ new, d.live.get? id = some new ∧ new.Extends old

/-- No creation that keeps the counters in range returns an id that is in use, or takes the place of a row. -/
structure CreatesAnew (c : Circuit) : Prop where
  cell : ∀ validate parent kind position id d, createCell validate parent kind position c = .ok id d →
    d.ids.InRange → c.contains id = false ∧ c.isArchived id = false
  wire : ∀ validate source target colour timing id d,
    createWire validate source target colour timing c = .ok id d →
    d.ids.InRange → c.contains id = false ∧ c.isArchived id = false
  cell_extends : ∀ validate parent kind position,
    ((createCell validate parent kind position).final c).ids.InRange →
    ((createCell validate parent kind position).final c).Extends c
  wire_extends : ∀ validate source target colour timing,
    ((createWire validate source target colour timing).final c).ids.InRange →
    ((createWire validate source target colour timing).final c).Extends c

/-- The circuits that edits and projections lead to while the counters stay in range, the edits validated or
not. -/
inductive Later (c : Circuit) : Circuit → Prop
  | now : Later c c
  | edited {d : Circuit} (h : Later c d) (validate : Bool) (action : Action)
    (hrange : (action.perform validate d).ids.InRange) : Later c (action.perform validate d)
  | projected {d e : Circuit} (h : Later c d) {validate : Bool} (hproject : d.project validate = .ok e) :
    Later c e

/-- Whatever is done with the circuit while its counters stay in range, creations make new rows under new ids. -/
def NeverReuses (c : Circuit) : Prop := ∀ d, c.Later d → d.CreatesAnew

theorem Later.trans {e : Circuit} (h : c.Later d) (h' : d.Later e) : c.Later e := by
  induction h' with
  | now => exact h
  | edited _ validate action hrange ih => exact ih.edited validate action hrange
  | projected _ hproject ih => exact ih.projected hproject

theorem NeverReuses.later (h : c.NeverReuses) (hlater : c.Later d) : d.NeverReuses :=
  fun e he => h e (hlater.trans he)

theorem extends_refl (c : Circuit) : c.Extends c := fun _ old hold => ⟨old, hold, old.extends_refl⟩

theorem Extends.trans {e : Circuit} (h : e.Extends d) (h' : d.Extends c) : e.Extends c := by
  intro id old hold
  obtain ⟨mid, hmid, hgrown⟩ := h' id old hold
  obtain ⟨new, hnew, hgrown'⟩ := h id mid hmid
  exact ⟨new, hnew, hgrown'.trans hgrown⟩

theorem extends_put {id : Id} (hnew : id ∉ c.live.keys) (rest : IdPool) (row : Row) :
    ({ c with ids := rest }.put id row).Extends c := by
  intro k old hold
  have hne : k ≠ id := by
    rintro rfl
    exact hnew (Table.mem_keys_iff.mpr (Option.isSome_of_eq_some hold))
  refine ⟨old, ?_, old.extends_refl⟩
  rw [get?_put, if_neg hne]
  exact hold

theorem extends_changeCell (id : CellId) {change : Cell → Cell}
    (hchange : ∀ cell, (Row.cell (change cell)).Extends (.cell cell)) : (c.changeCell id change).Extends c := by
  intro k old hold
  rw [get?_changeCell]
  split
  next hk =>
    obtain ⟨cell, hcell⟩ := Option.isSome_iff_exists.mp hk.2
    rw [hk.1, cell?_eq_some_iff.mp hcell] at hold
    cases hold
    exact ⟨.cell (change cell), by rw [hcell]; rfl, hchange cell⟩
  next => exact ⟨old, hold, old.extends_refl⟩

/-! ## What creations come to -/

theorem final_createCell_cases (c : Circuit) (validate : Bool) (parent : CellId) (kind : CellKind)
    (position : Position) :
    (createCell validate parent kind position).final c = c ∨
    (((createCell validate parent kind position).final c).ids.InRange → c.ids.takeCell.2.InRange) ∧
    (createCell validate parent kind position).final c =
      ({ c with ids := c.ids.takeCell.2 }.put c.ids.takeCell.1
        (.cell (.fresh c.ids.takeCell.1 (some parent) kind position))).changeCell parent
        fun cell => { cell with children := cell.children ++ [c.ids.takeCell.1] } := by
  cases hparent : c.cell parent with
  | error fault => exact Or.inl (final_bind_of_error (ask_of_error hparent) _)
  | ok above =>
    refine Or.inr ⟨(sameCounters_createCell hparent validate kind position).inRange, ?_⟩
    rw [final_of_run (createCell_run (cell_ok_iff.mp hparent) ..), final_validated_bind]

/-- A live cell lies under another id than one that is not in use. -/
theorem ne_of_not_mem_keys {id : Id} (hnew : id ∉ c.live.keys) {x : CellId} {cell : Cell}
    (hcell : c.cell x = .ok cell) : x.toId ≠ id := by
  rintro rfl
  exact hnew (mem_keys_of_cell? (cell_ok_iff.mp hcell))

theorem final_createWire_cases (c : Circuit) (validate : Bool) (source target : CellId) (colour : ColourFilter)
    (timing : Timing) :
    (createWire validate source target colour timing).final c = c ∨
    (((createWire validate source target colour timing).final c).ids.InRange → c.ids.takeWire.2.InRange) ∧
    (c.ids.takeWire.1.toId ∉ c.live.keys → (createWire validate source target colour timing).final c =
      (({ c with ids := c.ids.takeWire.2 }.put c.ids.takeWire.1
        (.wire ⟨c.ids.takeWire.1, source, target, colour, timing⟩)).changeCell source
        fun cell => { cell with outputs := cell.outputs ++ [c.ids.takeWire.1] }).changeCell target
        fun cell => { cell with inputs := cell.inputs ++ [c.ids.takeWire.1] }) := by
  cases hsource : c.cell source with
  | error fault => exact Or.inl (final_bind_of_error (ask_of_error hsource) _)
  | ok left =>
  cases htarget : c.cell target with
  | error fault =>
    left
    rw [createWire, final_bind_of_ok (ask_of_ok hsource), final_bind_of_error (ask_of_error htarget)]
  | ok reached =>
    refine Or.inr ⟨(sameCounters_createWire hsource htarget validate colour timing).inRange, fun hnew => ?_⟩
    rw [final_of_run (createWire_run_of_ne (cell_ok_iff.mp hsource) (cell_ok_iff.mp htarget)
      (ne_of_not_mem_keys hnew hsource) (ne_of_not_mem_keys hnew htarget) ..), final_validated_bind]

theorem contains_eq_false {t : Table Id Row} {id : Id} (h : id ∉ t.keys) : t.contains id = false := by
  rw [Bool.eq_false_iff]
  exact fun hcontains => h (Table.contains_iff.mp hcontains)

/-! ## Pools that fit -/

/-- The pool fits the tables: the counters come to no id that is known, and to none that the other one comes to,
what may be handed out again neither lies in a table nor waits twice, and no row is both live and archived. -/
structure Fits (c : Circuit) : Prop where
  apart : ∀ id, c.ids.Counts .cell id → ¬ c.ids.Counts .wire id
  known : ∀ id ∈ c.live.keys ++ c.archive.keys ++ c.ids.free ++ c.ids.held, ∀ noun, ¬ c.ids.Counts noun id
  once : (c.live.keys ++ c.ids.free ++ c.ids.held).Nodup
  archived : ∀ id ∈ c.archive.keys, id ∉ c.live.keys ∧ id ∉ c.ids.free

namespace Fits

/-- At most one of the counters comes to an id. -/
theorem counts_unique (h : c.Fits) {noun other : Noun} {id : Id} (hnoun : c.ids.Counts noun id)
    (hother : c.ids.Counts other id) : other = noun := by
  cases noun <;> cases other
  case cell.cell | wire.wire => rfl
  case cell.wire => exact absurd hother (h.apart id hnoun)
  case wire.cell => exact absurd hnoun (h.apart id hother)

/-- An id about to be handed out names no live and no archived row, and waits nowhere else. -/
theorem absent (h : c.Fits) {id : Id} {rest : IdPool} (hdealt : c.ids.Dealt id rest) :
    id ∉ c.live.keys ∧ id ∉ c.archive.keys ∧ id ∉ rest.free ++ c.ids.held := by
  have honce := h.once
  rw [List.append_assoc] at honce
  obtain ⟨-, hnodup, hapart⟩ := List.nodup_append.mp honce
  rcases hdealt with ⟨hfree, -, -, -⟩ | ⟨noun, hfree, -, hcounted, -, -⟩
  · have hmem : id ∈ c.ids.free := hfree.mem_iff.mpr List.mem_cons_self
    refine ⟨?_, ?_, ?_⟩
    · exact fun hlive => hapart id hlive id (List.mem_append_left _ hmem) rfl
    · exact fun harchived => (h.archived id harchived).2 hmem
    · rw [(hfree.append_right c.ids.held).nodup_iff, List.cons_append, List.nodup_cons] at hnodup
      exact hnodup.1
  · -- what a counter comes to is not known
    have hunknown : id ∉ c.live.keys ++ c.archive.keys ++ c.ids.free ++ c.ids.held :=
      fun hmem => h.known id hmem noun hcounted
    simpa [hfree, not_or, and_assoc] using hunknown

/-- What is left of a pool waits once, and its counters come neither to the id that was handed out nor to any that
they did not come to before. -/
theorem rest (h : c.Fits) {id : Id} {rest : IdPool} (hdealt : c.ids.Dealt id rest) :
    rest.held = c.ids.held ∧ (∀ x ∈ rest.free, x ∈ c.ids.free) ∧ (c.live.keys ++ rest.free ++ c.ids.held).Nodup ∧
      (∀ noun x, rest.Counts noun x → c.ids.Counts noun x) ∧ ∀ noun, ¬ rest.Counts noun id := by
  rcases hdealt with ⟨hfree, hcell, hwire, hheld⟩ | ⟨noun, hfree, hheld, hcounted, hpast, hless⟩
  · have hmem : id ∈ c.ids.free := hfree.mem_iff.mpr List.mem_cons_self
    refine ⟨hheld, ?_, ?_, fun noun x => IdPool.counts_of_counters hcell hwire, fun noun hcounts => ?_⟩
    · exact fun x hx => hfree.mem_iff.mpr (List.mem_cons_of_mem _ hx)
    · have hperm := ((hfree.append_left c.live.keys).append_right c.ids.held).nodup_iff.mp h.once
      exact hperm.sublist (((List.sublist_cons_self ..).append_left _).append_right _)
    · exact h.known id (by simp [hmem]) noun (IdPool.counts_of_counters hcell hwire hcounts)
  · refine ⟨hheld, ?_, ?_, hless, fun other hcounts => ?_⟩
    · exact fun x hx => hfree ▸ hx
    · rw [hfree]
      exact h.once
    · obtain rfl := h.counts_unique hcounted (hless other id hcounts)
      exact hpast hcounts

/-- An id is handed out and a row put under it. -/
theorem put (h : c.Fits) {id : Id} {rest : IdPool} (hdealt : c.ids.Dealt id rest) (row : Row) :
    ({ c with ids := rest }.put id row).Fits := by
  obtain ⟨hlive, harchived, hwaiting⟩ := h.absent hdealt
  obtain ⟨hheld, hfree, honce, hless, hpast⟩ := h.rest hdealt
  have hkeys : (c.live.insert id row).keys = c.live.keys ++ [id] := Table.keys_insert_of_not_mem row hlive
  have hknown := h.known
  simp only [List.mem_append] at hknown
  refine ⟨?_, ?_, ?_, ?_⟩
  · exact fun x hcell hwire => h.apart x (hless _ x hcell) (hless _ x hwire)
  · intro x hx noun hcounts
    have hbefore := hless noun x hcounts
    simp only [Circuit.put, hkeys, hheld, List.mem_append, List.mem_singleton] at hx
    rcases hx with (((hx | rfl) | hx) | hx) | hx
    · exact hknown x (Or.inl (Or.inl (Or.inl hx))) noun hbefore
    · exact hpast noun hcounts
    · exact hknown x (Or.inl (Or.inl (Or.inr hx))) noun hbefore
    · exact hknown x (Or.inl (Or.inr (hfree x hx))) noun hbefore
    · exact hknown x (Or.inr hx) noun hbefore
  · -- the id is now a live one, and waits no more
    show ((c.live.insert id row).keys ++ rest.free ++ rest.held).Nodup
    rw [hkeys, hheld, List.append_assoc, List.append_assoc, List.singleton_append, List.nodup_middle,
      List.nodup_cons, List.mem_append, not_or, ← List.append_assoc]
    exact ⟨⟨hlive, hwaiting⟩, honce⟩
  · intro x hx
    obtain ⟨hnotLive, hnotFree⟩ := h.archived x hx
    refine ⟨?_, fun hrest => hnotFree (hfree x hrest)⟩
    show x ∉ (c.live.insert id row).keys
    rw [hkeys, List.mem_append, List.mem_singleton, not_or]
    refine ⟨hnotLive, ?_⟩
    rintro rfl
    exact harchived hx

theorem of_same_keys (h : c.Fits) (hkeys : d.live.keys = c.live.keys) (harchive : d.archive = c.archive)
    (hids : d.ids = c.ids) : d.Fits := by
  refine ⟨?_, ?_, ?_, ?_⟩
  · rw [hids]
    exact h.apart
  · rw [hkeys, harchive, hids]
    exact h.known
  · rw [hkeys, hids]
    exact h.once
  · rw [hkeys, harchive, hids]
    exact h.archived

/-- A row that is live is one more than those that stay. -/
theorem perm_keys_erase {id : Id} (hmem : id ∈ c.live.keys) :
    c.live.keys.Perm (id :: (c.live.erase id).keys) := by
  have hnodup : c.live.keys.Nodup := c.live.nodup
  have hkeys : (c.live.erase id).keys = c.live.keys.erase id := by
    rw [Table.keys_erase, hnodup.erase_eq_filter]
    refine List.filter_congr fun x _ => ?_
    simp [bne, beq_eq_decide]
  rw [hkeys]
  exact List.perm_cons_erase hmem

theorem mem_keys_of_erase {id x : Id} (hmem : id ∈ c.live.keys) (hx : x ∈ (c.live.erase id).keys) :
    x ∈ c.live.keys :=
  (perm_keys_erase hmem).mem_iff.mpr (List.mem_cons_of_mem _ hx)

/-- A row that is deleted leaves its id to the pool. -/
theorem deleted (h : c.Fits) {id : Id} (hmem : id ∈ c.live.keys) :
    ({ c with live := c.live.erase id, ids := c.ids.release id } : Circuit).Fits := by
  obtain ⟨hcell, hwire, hheld⟩ := c.ids.counters_release id
  have hsame : ∀ {noun x}, (c.ids.release id).Counts noun x → c.ids.Counts noun x :=
    IdPool.counts_of_counters hcell hwire
  have hfree := c.ids.free_release id
  have hwaiting : ∀ x ∈ (c.ids.release id).free, x = id ∨ x ∈ c.ids.free := fun x hx =>
    List.mem_cons.mp (hfree.mem_iff.mp hx)
  have hknown := h.known
  simp only [List.mem_append] at hknown
  refine ⟨?_, ?_, ?_, ?_⟩
  · exact fun x hleft hright => h.apart x (hsame hleft) (hsame hright)
  · intro x hx noun hcounts
    refine hknown x ?_ noun (hsame hcounts)
    simp only [List.mem_append, hheld] at hx
    rcases hx with ((hx | hx) | hx) | hx
    · exact Or.inl (Or.inl (Or.inl (mem_keys_of_erase hmem hx)))
    · exact Or.inl (Or.inl (Or.inr hx))
    · rcases hwaiting x hx with rfl | hx
      · exact Or.inl (Or.inl (Or.inl hmem))
      · exact Or.inl (Or.inr hx)
    · exact Or.inr hx
  · show ((c.live.erase id).keys ++ (c.ids.release id).free ++ (c.ids.release id).held).Nodup
    rw [hheld]
    refine (List.Perm.nodup_iff ?_).mp h.once
    refine List.Perm.append_right c.ids.held ?_
    calc (c.live.keys ++ c.ids.free).Perm (id :: (c.live.erase id).keys ++ c.ids.free) :=
        (perm_keys_erase hmem).append_right c.ids.free
      _ |>.Perm ((c.live.erase id).keys ++ id :: c.ids.free) := List.perm_middle.symm
      _ |>.Perm ((c.live.erase id).keys ++ (c.ids.release id).free) := hfree.symm.append_left _
  · intro x hx
    obtain ⟨hnotLive, hnotFree⟩ := h.archived x hx
    refine ⟨fun hx => hnotLive (mem_keys_of_erase hmem hx), fun hx => ?_⟩
    rcases hwaiting x hx with rfl | hx
    · exact hnotLive hmem
    · exact hnotFree hx

/-- A row that is archived takes its id along. -/
theorem stored (h : c.Fits) {id : Id} (hmem : id ∈ c.live.keys) (row : Row) :
    ({ live := c.live.erase id, archive := c.archive.insert id row, ids := c.ids.hold id } : Circuit).Fits := by
  have hnot : id ∉ c.archive.keys := fun harchived => (h.archived id harchived).1 hmem
  have harchive : (c.archive.insert id row).keys = c.archive.keys ++ [id] :=
    Table.keys_insert_of_not_mem row hnot
  have hknown := h.known
  simp only [List.mem_append] at hknown
  have honce := h.once
  rw [List.append_assoc, ((perm_keys_erase hmem).append_right _).nodup_iff, List.cons_append, List.nodup_cons,
    List.mem_append, List.mem_append, not_or, not_or, ← List.append_assoc] at honce
  refine ⟨h.apart, ?_, ?_, ?_⟩
  · intro x hx
    apply hknown x
    simp only [harchive, IdPool.hold, List.mem_append, List.mem_singleton] at hx
    rcases hx with ((hx | hx | rfl) | hx) | hx | rfl
    · exact Or.inl (Or.inl (Or.inl (mem_keys_of_erase hmem hx)))
    · exact Or.inl (Or.inl (Or.inr hx))
    · exact Or.inl (Or.inl (Or.inl hmem))
    · exact Or.inl (Or.inr hx)
    · exact Or.inr hx
    · exact Or.inl (Or.inl (Or.inl hmem))
  · show ((c.live.erase id).keys ++ c.ids.free ++ (c.ids.held ++ [id])).Nodup
    rw [← List.append_assoc, List.nodup_append_comm, List.singleton_append, List.nodup_cons,
      List.mem_append, List.mem_append, not_or, not_or]
    exact ⟨⟨⟨honce.1.1, honce.1.2.1⟩, honce.1.2.2⟩, honce.2⟩
  · intro x hx
    show x ∉ (c.live.erase id).keys ∧ x ∉ c.ids.free
    rw [harchive, List.mem_append, List.mem_singleton] at hx
    rcases hx with hx | rfl
    · obtain ⟨hnotLive, hnotFree⟩ := h.archived x hx
      exact ⟨fun hx => hnotLive (mem_keys_of_erase hmem hx), hnotFree⟩
    · exact ⟨honce.1.1, honce.1.2.1⟩

theorem retired (h : c.Fits) (removal : Removal) (id : Id) : (c.retired removal id).Fits := by
  unfold Circuit.retired
  cases hrow : c.live.get? id with
  | none => exact h
  | some row =>
    have hmem : id ∈ c.live.keys := Table.mem_keys_iff.mpr (Option.isSome_of_eq_some hrow)
    cases removal with
    | delete => exact h.deleted hmem
    | archive => exact h.stored hmem row

/-- A purge gives the held ids back to the pool and leaves nothing archived. -/
theorem purge (h : c.Fits) : ({ c with archive := .empty, ids := c.ids.purge.2 } : Circuit).Fits := by
  obtain ⟨hcell, hwire, hheld⟩ := IdPool.counters_foldl_release c.ids.held { c.ids with held := [] }
  have hfree := IdPool.free_foldl_release c.ids.held { c.ids with held := [] }
  have hpool : c.ids.purge.2 = c.ids.held.foldl IdPool.release { c.ids with held := [] } := rfl
  have hknown := h.known
  simp only [List.mem_append] at hknown
  rw [← hpool] at hcell hwire hheld hfree
  have hsame : ∀ {noun x}, c.ids.purge.2.Counts noun x → c.ids.Counts noun x :=
    IdPool.counts_of_counters hcell hwire
  refine ⟨?_, ?_, ?_, ?_⟩
  · exact fun x hleft hright => h.apart x (hsame hleft) (hsame hright)
  · intro x hx noun hcounts
    refine hknown x ?_ noun (hsame hcounts)
    simp only [hheld, List.append_nil, List.mem_append, hfree.mem_iff] at hx
    rcases hx with (hx | hx) | hx | hx
    · exact Or.inl (Or.inl (Or.inl hx))
    · cases hx
    · exact Or.inr hx
    · exact Or.inl (Or.inr hx)
  · show (c.live.keys ++ c.ids.purge.2.free ++ c.ids.purge.2.held).Nodup
    rw [hheld, List.append_nil]
    refine (List.Perm.nodup_iff ?_).mp h.once
    rw [List.append_assoc]
    exact (List.perm_append_comm.trans hfree.symm).append_left c.live.keys
  · intro x hx
    cases hx

end Fits

/-- Edits other than creations keep the fit. -/
theorem tolerant_fits : Tolerant fun c d => c.Fits → d.Fits where
  trans := fun h h' hc => h' (h hc)
  changed := fun hkeys harchive hids hc => hc.of_same_keys hkeys harchive hids
  retired := fun removal id _ hc => hc.retired removal id
  purged := fun _ hc => hc.purge

/-- Where the pool fits, creations touch nothing that is there. -/
theorem Fits.createsAnew (h : c.Fits) : c.CreatesAnew := by
  constructor
  case cell =>
    intro validate parent kind position id d hrun hrange
    obtain ⟨above, hparent, -⟩ := exists_of_ask hrun
    rw [← final_of_ok hrun] at hrange
    have hleft := (sameCounters_createCell hparent validate kind position).inRange hrange
    obtain ⟨hlive, harchived, -⟩ := h.absent (IdPool.dealt_takeCell hleft)
    rw [createCell_run (cell_ok_iff.mp hparent)] at hrun
    rw [validated_bind_ok hrun]
    exact ⟨contains_eq_false hlive, contains_eq_false harchived⟩
  case wire =>
    intro validate source target colour timing id d hrun hrange
    obtain ⟨left, hsource, hrest⟩ := exists_of_ask hrun
    obtain ⟨reached, htarget, -⟩ := exists_of_ask hrest
    rw [← final_of_ok hrun] at hrange
    have hleft := (sameCounters_createWire hsource htarget validate colour timing).inRange hrange
    obtain ⟨hlive, harchived, -⟩ := h.absent (IdPool.dealt_takeWire hleft)
    rw [createWire_run_of_ne (cell_ok_iff.mp hsource) (cell_ok_iff.mp htarget)
      (ne_of_not_mem_keys hlive hsource) (ne_of_not_mem_keys hlive htarget)] at hrun
    rw [validated_bind_ok hrun]
    exact ⟨contains_eq_false hlive, contains_eq_false harchived⟩
  case cell_extends =>
    intro validate parent kind position hrange
    rcases c.final_createCell_cases validate parent kind position with hfinal | ⟨hleft, hfinal⟩
    · rw [hfinal]
      exact c.extends_refl
    · have hlive := (h.absent (IdPool.dealt_takeCell (hleft hrange))).1
      rw [hfinal]
      refine (extends_changeCell _ fun cell => ?_).trans (extends_put hlive _ _)
      exact ⟨[c.ids.takeCell.1], [], [], by simp⟩
  case wire_extends =>
    intro validate source target colour timing hrange
    rcases c.final_createWire_cases validate source target colour timing with hfinal | ⟨hleft, hfinal⟩
    · rw [hfinal]
      exact c.extends_refl
    · have hlive := (h.absent (IdPool.dealt_takeWire (hleft hrange))).1
      rw [hfinal hlive]
      refine (extends_changeCell _ fun cell => ?_).trans
        ((extends_changeCell _ fun cell => ?_).trans (extends_put hlive _ _))
      · exact ⟨[], [c.ids.takeWire.1], [], by simp⟩
      · exact ⟨[], [], [c.ids.takeWire.1], by simp⟩

/-! ## Whatever is done later -/

section Later

variable {P : Circuit → Prop}

/-- What all other edits keep is kept by an action if creations keep it here. -/
theorem keeps_perform (h : Tolerant fun c d => P c → P d) {validate : Bool}
    (hcell : ∀ parent kind position, ((createCell validate parent kind position).final c).ids.InRange →
      P ((createCell validate parent kind position).final c))
    (hwire : ∀ source target colour timing,
      ((createWire validate source target colour timing).final c).ids.InRange →
      P ((createWire validate source target colour timing).final c))
    (hc : P c) {action : Action} (hrange : (action.perform validate c).ids.InRange) :
    P (action.perform validate c) := by
  cases action with
  | createCell parent kind position => exact hcell parent kind position hrange
  | createWire source target colour timing => exact hwire source target colour timing hrange
  | fireCell id colour => exact h.setPulse validate id colour _ c hc
  | fire id colour pulse => exact h.setPulse validate id colour _ c hc
  | clearFire id colour => exact h.setPulse validate id colour _ c hc
  | tagCell id tag => exact h.tagCell validate id tag c hc
  | clearTags => exact h.clearTags c hc
  | modifyCell id patch => exact h.modifyCell validate id patch c hc
  | modifyWire id patch => exact h.modifyWire validate id patch c hc
  | deleteCell id => exact h.removeCell validate .delete id c hc
  | archiveCell id => exact h.removeCell validate .archive id c hc
  | deleteWire id => exact h.removeWire validate .delete id c hc
  | archiveWire id => exact h.removeWire validate .archive id c hc
  | purge => exact h.purge c hc

/-- And by everything that can be done later, since a projection leaves ids alone. -/
theorem Later.keeps (hlater : c.Later d) (h : Tolerant fun c d => P c → P d)
    (hcell : ∀ {c : Circuit} validate parent kind position, P c →
      ((createCell validate parent kind position).final c).ids.InRange →
      P ((createCell validate parent kind position).final c))
    (hwire : ∀ {c : Circuit} validate source target colour timing, P c →
      ((createWire validate source target colour timing).final c).ids.InRange →
      P ((createWire validate source target colour timing).final c))
    (hc : P c) : P d := by
  induction hlater with
  | now => exact hc
  | edited _ validate action hrange ih =>
    exact keeps_perform h (fun parent kind position => hcell validate parent kind position ih)
      (fun source target colour timing => hwire validate source target colour timing ih) ih hrange
  | projected _ hproject ih =>
    obtain ⟨kept, -, rfl⟩ := project_ok hproject
    exact h.changed (Table.keys_map ..) rfl rfl ih

end Later

/-- Nothing that is done with a circuit whose pool fits takes the fit away. -/
theorem Fits.later (h : c.Fits) (hlater : c.Later d) : d.Fits := by
  refine hlater.keeps tolerant_fits ?_ ?_ h
  · intro c validate parent kind position hc hrange
    rcases c.final_createCell_cases validate parent kind position with hfinal | ⟨hleft, hfinal⟩
    · rw [hfinal]
      exact hc
    · have hdealt := IdPool.dealt_takeCell (hleft hrange)
      rw [hfinal]
      exact (hc.put hdealt _).of_same_keys (keys_changeCell ..) (archive_changeCell ..) (ids_changeCell ..)
  · intro c validate source target colour timing hc hrange
    rcases c.final_createWire_cases validate source target colour timing with hfinal | ⟨hleft, hfinal⟩
    · rw [hfinal]
      exact hc
    · have hdealt := IdPool.dealt_takeWire (hleft hrange)
      rw [hfinal (hc.absent hdealt).1]
      refine ((hc.put hdealt _).of_same_keys (keys_changeCell ..) (archive_changeCell ..)
        (ids_changeCell ..)).of_same_keys (keys_changeCell ..) (archive_changeCell ..) (ids_changeCell ..)

theorem Fits.neverReuses (h : c.Fits) : c.NeverReuses := fun _ hlater => (h.later hlater).createsAnew

/-- Where there is no row, there never will be one. -/
theorem rowless_later (h : c.live.keys = []) (hlater : c.Later d) : d.live.keys = [] := by
  have hrowless : ∀ {c : Circuit} (parent : CellId), c.live.keys = [] →
      ∃ fault, c.cell parent = .error fault := by
    intro c parent hc
    have hnone : c.live.get? parent = none := Table.get?_eq_none_iff.mpr (by simp [hc])
    exact ⟨.notFound parent, by rw [Circuit.cell, hnone]⟩
  have htolerant : Tolerant fun c d => c.live.keys = [] → d.live.keys = [] := by
    refine ⟨fun h h' hc => h' (h hc), fun hkeys _ _ hc => hkeys.trans hc, ?_, fun _ hc => hc⟩
    intro removal id c hc
    have hnone : c.live.get? id = none := Table.get?_eq_none_iff.mpr (by simp [hc])
    rw [Circuit.retired, hnone]
    exact hc
  refine hlater.keeps htolerant ?_ ?_ h
  · intro c validate parent kind position hc _
    obtain ⟨fault, hfault⟩ := hrowless parent hc
    rw [createCell, final_bind_of_error (ask_of_error hfault)]
    exact hc
  · intro c validate source target colour timing hc _
    obtain ⟨fault, hfault⟩ := hrowless source hc
    rw [createWire, final_bind_of_error (ask_of_error hfault)]
    exact hc

theorem neverReuses_of_rowless (h : c.live.keys = []) : c.NeverReuses := by
  intro d hlater
  have hnone : ∀ id, d.live.get? id = none := fun id =>
    Table.get?_eq_none_iff.mpr (by simp [rowless_later h hlater])
  have hcell : ∀ id cell, d.cell id ≠ .ok cell := by
    intro id cell hcell
    rw [cell_eq_ok_iff, hnone] at hcell
    cases hcell
  refine ⟨?_, ?_, ?_, ?_⟩
  · intro validate parent kind position id e hrun _
    obtain ⟨above, hparent, -⟩ := exists_of_ask hrun
    exact absurd hparent (hcell _ _)
  · intro validate source target colour timing id e hrun _
    obtain ⟨left, hsource, -⟩ := exists_of_ask hrun
    exact absurd hsource (hcell _ _)
  · intro validate parent kind position _ id old hold
    rw [hnone] at hold
    cases hold
  · intro validate source target colour timing _ id old hold
    rw [hnone] at hold
    cases hold

end Circuit

end PulseCircuit
