import PulseCircuit.Proofs.Cascades

/-!
# Archiving and then purging

Archiving keeps the ids of what it removes aside until a purge gives them all back, and deleting gives each back
at once. So purging what an archiving run has left comes to the same as deleting all along: the purge turns each
change of the one run into the change of the other (`purged_retired` and what follows it), no look-up sees the
difference in between (`cascade_purged`), and one removal after the other goes the same way in both runs
(`Sound.archive_delete`, `Sound.leftBy_purged`).
-/

namespace PulseCircuit

theorem IdPool.purge_hold (pool : IdPool) (id : Id) : (pool.hold id).purge.2 = pool.purge.2.release id := by
  show (pool.held ++ [id]).foldl release { pool with held := [] } = _
  rw [List.foldl_append]
  rfl

namespace Circuit

open Edit Running

variable {c d : Circuit}

/-- The circuit with its archive emptied and the ids there given back. -/
def purged (c : Circuit) : Circuit := { c with archive := .empty, ids := c.ids.purge.2 }

theorem purge_run (c : Circuit) : purge c = .ok c.ids.held c.purged := rfl

theorem Sound.purged (h : c.Sound) : c.purged.Sound := h.purge

/-- Where nothing is archived there is nothing to purge. -/
theorem Owned.purged_of_empty (h : c.Owned) (hempty : c.archive = .empty) : c.purged = c := by
  have hheld : c.ids.held = [] := by rw [h.held, hempty]; rfl
  obtain ⟨live, archive, ids⟩ := c
  obtain ⟨nextCell, nextWire, freeCells, freeWires, held⟩ := ids
  subst hempty hheld
  rfl

/-! ## What is seen -/

theorem cell_purged (c : Circuit) (id : CellId) : c.purged.cell id = c.cell id := rfl

theorem walk_purged (c : Circuit) (origin : CellId) (fuel : Nat) (stack : List Visit)
    (listed : List CellId) : c.purged.walk origin fuel stack listed = c.walk origin fuel stack listed := by
  induction fuel generalizing stack listed with
  | zero => cases stack <;> rfl
  | succ fuel ih =>
    rcases stack with - | ⟨id | id, stack⟩
    · rfl
    · simp only [walk, cell_purged, ih]
    · simp only [walk, ih]

theorem cascade_purged (c : Circuit) (id : CellId) : c.purged.cascade id = c.cascade id := by
  have hsub : c.purged.subtree id = c.subtree id := walk_purged c id ..
  have hwires : ∀ ids, c.purged.wiresAt ids = c.wiresAt ids := fun _ => rfl
  simp only [cascade, cell_purged, hsub, hwires]

/-! ## What is changed -/

theorem purged_changeCell (c : Circuit) (id : CellId) (change : Cell → Cell) :
    (c.changeCell id change).purged = c.purged.changeCell id change := by
  have hcell : c.purged.cell? id = c.cell? id := rfl
  unfold changeCell
  rw [hcell]
  split <;> rfl

theorem purged_retired (c : Circuit) (id : Id) :
    (c.retired .archive id).purged = c.purged.retired .delete id := by
  have hrow : c.purged.live.get? id = c.live.get? id := rfl
  unfold retired
  rw [hrow]
  cases c.live.get? id with
  | none => rfl
  | some row => simp only [purged, IdPool.purge_hold]

theorem purged_dropAll (c : Circuit) (ids : List CellId) :
    (c.dropAll .archive ids).purged = c.purged.dropAll .delete ids := by
  induction ids generalizing c with
  | nil => rfl
  | cons id ids ih =>
    refine (ih (c.retired .archive id)).trans ?_
    rw [purged_retired]
    rfl

theorem purged_dropWire (c : Circuit) (id : WireId) :
    (c.dropWire .archive id).purged = c.purged.dropWire .delete id := by
  have hlook : c.purged.wire? id = c.wire? id := rfl
  unfold dropWire
  rw [hlook]
  cases c.wire? id with
  | none => rfl
  | some wire => simp only [purged_retired, detached, purged_changeCell]

theorem purged_dropWires (c : Circuit) (ids : List WireId) :
    (c.dropWires .archive ids).purged = c.purged.dropWires .delete ids := by
  induction ids generalizing c with
  | nil => rfl
  | cons id ids ih => rw [dropWires_cons, ih, purged_dropWire, dropWires_cons]

theorem purged_prune (c : Circuit) (id : CellId) (going : Cascade) :
    (c.prune .archive id going).purged = c.purged.prune .delete id going := by
  simp only [prune, purged_dropAll, purged_changeCell, purged_dropWires]

/-! ## One removal -/

/-- A cell or a wire that is to be removed. -/
inductive Request where
  | cell (validate : Bool) (id : CellId)
  | wire (validate : Bool) (id : WireId)

namespace Request

def archive : Request → Edit Unit
  | .cell validate id => archiveCell validate id
  | .wire validate id => archiveWire validate id

def delete : Request → Edit Unit
  | .cell validate id => deleteCell validate id
  | .wire validate id => deleteWire validate id

/-- The ids of the rows that go when the request is met, in the order in which they go. None go if it fails. -/
def going (c : Circuit) : Request → List Id
  | .cell _ id =>
    match c.cascade id with
    | .ok going => going.ids
    | .error _ => []
  | .wire _ id =>
    match c.wire id with
    | .ok _ => [id]
    | .error _ => []

theorem going_purged (request : Request) (c : Circuit) : request.going c.purged = request.going c := by
  cases request with
  | cell validate id => rw [going, cascade_purged, going]
  | wire validate id => rfl

end Request

theorem held_foldl_hold (ids : List Id) (pool : IdPool) :
    (ids.foldl .hold pool).held = pool.held ++ ids := by
  induction ids generalizing pool with
  | nil => simp
  | cons id ids ih =>
    rw [List.foldl_cons, ih, IdPool.hold, List.append_assoc]
    rfl

namespace Sound

/-- A request ends in the same way in both runs. A purge makes up for the difference between what they leave,
and until then the ids of what goes are held. -/
theorem archive_delete (h : c.Sound) (request : Request) :
    (∃ fault, request.archive c = .error fault c ∧ request.delete c.purged = .error fault c.purged ∧
      request.going c = []) ∨
    ∃ d, request.archive c = .ok () d ∧ request.delete c.purged = .ok () d.purged ∧ d.Sound ∧
      d.ids.held = c.ids.held ++ request.going c := by
  cases request with
  | cell validate id =>
    cases hcascade : c.cascade id with
    | error fault =>
      refine Or.inl ⟨fault, removeCell_of_error validate .archive hcascade,
        removeCell_of_error validate .delete ((cascade_purged c id).trans hcascade), ?_⟩
      rw [Request.going, hcascade]
    | ok going =>
      refine Or.inr ⟨c.prune .archive id going, h.removeCell_run validate .archive hcascade, ?_,
        h.prune .archive hcascade, ?_⟩
      · rw [purged_prune]
        exact h.purged.removeCell_run validate .delete ((cascade_purged c id).trans hcascade)
      · rw [h.ids_prune .archive hcascade, Request.going, hcascade]
        exact held_foldl_hold going.ids c.ids
  | wire validate id =>
    cases hask : c.wire id with
    | error fault =>
      refine Or.inl ⟨fault, removeWire_of_error validate .archive hask,
        removeWire_of_error validate .delete hask, ?_⟩
      rw [Request.going, hask]
    | ok wire =>
      have hwire := wire_ok_iff.mp hask
      refine Or.inr ⟨c.dropWire .archive id, h.removeWire_run validate .archive hwire, ?_,
        h.dropWire .archive id, ?_⟩
      · rw [purged_dropWire]
        exact h.purged.removeWire_run validate .delete hwire
      · rw [ids_dropWire .archive hwire, Request.going, hask]
        rfl

end Sound

/-! ## Many removals -/

/-- How edits end, one after the other: with a fault or without. One that fails does not stop the others. -/
def replies : List (Edit Unit) → Circuit → List (Option Fault)
  | [], _ => []
  | edit :: edits, c => edit.fault? c :: replies edits (edit.final c)

/-- The circuit that edits leave behind, one after the other. -/
def leftBy (edits : List (Edit Unit)) (c : Circuit) : Circuit := edits.foldl (fun c edit => edit.final c) c

/-- The ids of all rows that go when requests are met by deleting, in the order in which they go. -/
def taken : List Request → Circuit → List Id
  | [], _ => []
  | request :: requests, c => request.going c ++ taken requests (request.delete.final c)

/-- Archiving some rows and deleting them differ by a purge, from whatever circuit on the one side. -/
theorem Sound.leftBy_purged (h : c.Sound) (requests : List Request) :
    replies (requests.map Request.archive) c = replies (requests.map Request.delete) c.purged ∧
      (leftBy (requests.map Request.archive) c).purged = leftBy (requests.map Request.delete) c.purged ∧
      (leftBy (requests.map Request.archive) c).ids.held = c.ids.held ++ taken requests c.purged := by
  -- in step, the run that deletes is at what a purge makes of the run that archives
  induction requests generalizing c with
  | nil => exact ⟨rfl, rfl, (List.append_nil _).symm⟩
  | cons request requests ih =>
    simp only [List.map_cons, replies, leftBy, List.foldl_cons, taken, Request.going_purged]
    rcases h.archive_delete request with ⟨fault, harchive, hdelete, hgoing⟩ |
      ⟨d, harchive, hdelete, hd, hheld⟩
    · rw [fault?_of_error harchive, fault?_of_error hdelete, final_of_error harchive,
        final_of_error hdelete, hgoing]
      obtain ⟨hreplies, hleft, hids⟩ := ih h
      exact ⟨congrArg _ hreplies, hleft, hids⟩
    · rw [fault?_of_ok harchive, fault?_of_ok hdelete, final_of_ok harchive, final_of_ok hdelete,
        ← List.append_assoc, ← hheld]
      obtain ⟨hreplies, hleft, hids⟩ := ih hd
      exact ⟨congrArg _ hreplies, hleft, hids⟩

namespace Sound

theorem nodup_ids (h : c.Sound) {id : CellId} {going : Cascade} (hcascade : c.cascade id = .ok going) :
    going.ids.Nodup := by
  refine List.Nodup.append ?_ ?_ ?_
  · exact (nodup_wires_of_cascade hcascade).map fun _ _ => WireId.toId_inj.mp
  · exact (nodup_cells_of_cascade h.linked hcascade).map fun _ _ => CellId.toId_inj.mp
  · intro k hwire hcell
    obtain ⟨w, hw, rfl⟩ := List.mem_map.mp hwire
    obtain ⟨x, hx, heq⟩ := List.mem_map.mp hcell
    obtain ⟨wire, hlive⟩ := live_of_mem_wires h.linked hcascade hw
    obtain ⟨cell, hfound⟩ := live_of_mem_cells hcascade hx
    exact h.owned.toId_ne_toId hlive hfound heq

/-- All rows of a cascade are live. -/
theorem ids_subset (h : c.Sound) {id : CellId} {going : Cascade} (hcascade : c.cascade id = .ok going) :
    going.ids ⊆ c.live.keys := by
  intro k hk
  rcases List.mem_append.mp hk with hwire | hcell
  · obtain ⟨w, hw, rfl⟩ := List.mem_map.mp hwire
    obtain ⟨wire, hlive⟩ := live_of_mem_wires h.linked hcascade hw
    exact mem_keys_of_wire? hlive
  · obtain ⟨x, hx, rfl⟩ := List.mem_map.mp hcell
    obtain ⟨cell, hfound⟩ := live_of_mem_cells hcascade hx
    exact mem_keys_of_cell? hfound

theorem nodup_going (h : c.Sound) (request : Request) : (request.going c).Nodup := by
  cases request with
  | cell validate id =>
    rw [Request.going]
    cases hcascade : c.cascade id with
    | error fault => exact List.nodup_nil
    | ok going => exact h.nodup_ids hcascade
  | wire validate id =>
    rw [Request.going]
    split
    · exact List.nodup_singleton _
    · exact List.nodup_nil

/-- The rows that go are live before and not afterwards, and no other row goes. -/
theorem keys_delete (h : c.Sound) (request : Request) :
    request.going c ⊆ c.live.keys ∧
      (request.delete.final c).live.keys = c.live.keys.filter (· ∉ request.going c) := by
  cases request with
  | cell validate id =>
    cases hcascade : c.cascade id with
    | error fault =>
      have hrun : (Request.cell validate id).delete c = .error fault c :=
        removeCell_of_error validate .delete hcascade
      rw [final_of_error hrun, Request.going, hcascade]
      simp
    | ok going =>
      have hrun : (Request.cell validate id).delete c = .ok () (c.prune .delete id going) :=
        h.removeCell_run validate .delete hcascade
      rw [final_of_ok hrun, Request.going, hcascade]
      exact ⟨h.ids_subset hcascade, h.keys_prune .delete hcascade⟩
  | wire validate id =>
    cases hask : c.wire id with
    | error fault =>
      have hrun : (Request.wire validate id).delete c = .error fault c :=
        removeWire_of_error validate .delete hask
      rw [final_of_error hrun, Request.going, hask]
      simp
    | ok wire =>
      have hwire := wire_ok_iff.mp hask
      have hrun : (Request.wire validate id).delete c = .ok () (c.dropWire .delete id) :=
        h.removeWire_run validate .delete hwire
      rw [final_of_ok hrun, Request.going, hask, h.owned.keys_dropWire .delete (h.owned.noun_eq_wire hwire)]
      simpa using mem_keys_of_wire? hwire

theorem mem_going_iff (h : c.Sound) (request : Request) {id : Id} :
    id ∈ request.going c ↔ c.contains id = true ∧ (request.delete.final c).contains id = false := by
  obtain ⟨hsub, hkeys⟩ := h.keys_delete request
  rw [Bool.eq_false_iff, ne_eq, contains, contains, Table.contains_iff, Table.contains_iff, hkeys,
    List.mem_filter, decide_eq_true_iff, not_and_not_right]
  exact ⟨fun hid => ⟨hsub hid, fun _ => hid⟩, fun hid => hid.2 hid.1⟩

end Sound

/-- From a circuit with an empty archive, archiving whatever rows and purging once leaves just the circuit that
deleting them leaves, and each removal ends in the same way in both runs. The purge returns the ids of all that
went, removal by removal. -/
theorem Reachable.purge_after_archiving (h : Reachable c) (hempty : c.archive = .empty)
    (requests : List Request) :
    replies (requests.map Request.archive) c = replies (requests.map Request.delete) c ∧
    purge (leftBy (requests.map Request.archive) c) =
      .ok (taken requests c) (leftBy (requests.map Request.delete) c) ∧
    (leftBy (requests.map Request.delete) c).archive = .empty ∧
    ∀ d, Reachable d → ∀ request : Request, (request.going d).Nodup ∧
      ∀ id, id ∈ request.going d ↔
        d.contains id = true ∧ (request.delete.final d).contains id = false := by
  have hpurged := h.sound.owned.purged_of_empty hempty
  have hheld : c.ids.held = [] := by rw [h.sound.owned.held, hempty]; rfl
  obtain ⟨hreplies, hleft, hids⟩ := h.sound.leftBy_purged requests
  rw [hpurged] at hreplies hleft hids
  rw [hheld, List.nil_append] at hids
  refine ⟨hreplies, ?_, ?_, fun d hd request => ⟨hd.sound.nodup_going request, fun id =>
    hd.sound.mem_going_iff request⟩⟩
  · rw [purge_run, hids, hleft]
  · rw [← hleft]
    rfl

/-- A cell goes with what is below it, so that later requests find nothing there, and the root stays. -/
theorem purge_after_archiving_nested :
    let requests : List Request := [.wire true ⟨-3⟩, .cell true ⟨1⟩, .cell true ⟨3⟩, .wire true ⟨-2⟩,
      .cell true .root, .cell false ⟨2⟩]
    replies (requests.map Request.archive) nested = replies (requests.map Request.delete) nested ∧
    purge (leftBy (requests.map Request.archive) nested) =
      .ok (taken requests nested) (leftBy (requests.map Request.delete) nested) ∧
    (leftBy (requests.map Request.delete) nested).archive = .empty ∧
    ∀ d, Reachable d → ∀ request : Request, (request.going d).Nodup ∧
      ∀ id, id ∈ request.going d ↔
        d.contains id = true ∧ (request.delete.final d).contains id = false :=
  Reachable.purge_after_archiving (.performAll .initial true _) (by decide) _

example : taken [.wire true ⟨-3⟩, .cell true ⟨1⟩, .cell true ⟨3⟩, .cell true .root, .cell false ⟨2⟩] nested =
    [⟨-3⟩, ⟨-2⟩, ⟨-1⟩, ⟨4⟩, ⟨3⟩, ⟨1⟩, ⟨-4⟩, ⟨2⟩] := by decide

end Circuit

end PulseCircuit
