import PulseCircuit.Proofs.Horizon

/-!
# Every question comes to an end

A walk that goes deeper computes under a new key, and this key stays pending until the walk comes back.
There are only so many keys in all ticks within reach, so there is a depth no walk exceeds, and the depth a
question is allowed lies beyond it.

* `Scope.universe`: the keys in reach, as far as a computation under them can go deeper;
* `room_enter`: to enter a new key takes room;
* `Walk.fuel_le_room`: a walk that is cut off had room for as many keys as it was allowed to go deep.
-/

namespace PulseCircuit

/-! ## Faults that are no cuts -/

namespace Circuit

variable {c : Circuit} {x : Id}

theorem cell_ne_endless (id : CellId) : c.cell id ≠ .error (.endless x) := by
  unfold cell
  split <;> simp

theorem wire_ne_endless (id : WireId) : c.wire id ≠ .error (.endless x) := by
  unfold wire
  split <;> simp

theorem climbToLit_ne_endless (origin : CellId) (fuel : Nat) (id : Option CellId) :
    c.climbToLit origin fuel id ≠ .error (.endless x) := by
  intro h
  induction fuel generalizing id with
  | zero =>
    cases id with
    | none => cases h
    | some id =>
      cases hcell : c.cell id with
      | error fault =>
        simp only [climbToLit, hcell, bind, Except.bind] at h
        cases h
        exact cell_ne_endless id hcell
      | ok cell =>
        simp only [climbToLit, hcell, bind, Except.bind] at h
        split at h <;> cases h
  | succ fuel ih =>
    cases id with
    | none => cases h
    | some id =>
      cases hcell : c.cell id with
      | error fault =>
        simp only [climbToLit, hcell, bind, Except.bind] at h
        cases h
        exact cell_ne_endless id hcell
      | ok cell =>
        simp only [climbToLit, hcell, bind, Except.bind] at h
        split at h
        · cases h
        · exact ih _ h

theorem litAbove_ne_endless (id : CellId) : c.litAbove id ≠ .error (.endless x) := by
  intro h
  rw [litAbove] at h
  cases hcell : c.cell id with
  | error fault =>
    rw [hcell] at h
    cases h
    exact cell_ne_endless id hcell
  | ok cell =>
    rw [hcell] at h
    exact climbToLit_ne_endless _ _ _ h

theorem check_ne_endless (id : Id) : c.check id ≠ .error (.endless x) := by
  intro h
  cases hrow : c.row id with
  | error fault =>
    rw [check, hrow] at h
    cases h
    rw [row] at hrow
    split at hrow <;> cases hrow
  | ok row =>
    cases hdefect : c.rowDefect? row with
    | none =>
      rw [check_of_agree hrow hdefect] at h
      cases h
    | some defect =>
      rw [check_of_defect hrow hdefect] at h
      cases h

theorem project_ne_endless (validate : Bool) : c.project validate ≠ .error (.endless x) := by
  intro h
  rw [project] at h
  cases hkept : c.sheltered with
  | error fault =>
    rw [hkept] at h
    cases h
    rw [sheltered] at hkept
    cases hcells : c.cells.filterM fun cell =>
        if cell.fire.isLit then c.litAbove cell.id else .ok false with
    | error fault =>
      rw [hcells] at hkept
      cases hkept
      obtain ⟨cell, -, hfail⟩ := filterM_error hcells
      split at hfail
      · exact litAbove_ne_endless _ hfail
      · cases hfail
    | ok cells =>
      rw [hcells] at hkept
      cases hkept
  | ok kept =>
    rw [hkept] at h
    change (if validate then (c.keepPulses kept).checkAll >>= fun _ => .ok (c.keepPulses kept)
      else .ok (c.keepPulses kept) : Except Fault Circuit) = .error (.endless x) at h
    split at h
    · cases hcheck : (c.keepPulses kept).checkAll with
      | error fault =>
        rw [hcheck] at h
        cases h
        obtain ⟨id, -, hfail⟩ := forM_error hcheck
        exact check_ne_endless id hfail
      | ok u =>
        rw [hcheck] at h
        cases h
    · cases h

end Circuit

namespace Evaluator

open Circuit

/-! ## Room for new keys -/

/-- The ticks that can have a frame. -/
def Scope.ticks (s : Scope) : List Int :=
  (List.range (s.past + s.pastDepth + s.future + s.futureDepth + 1)).map fun n : Nat =>
    (n : Int) - (s.past + s.pastDepth : Nat)

/-- The keys of one colour under which a computation can go deeper. -/
def Scope.universe (s : Scope) (colour : Colour) : List MemoKey :=
  s.ticks.flatMap fun tick => (s.keys tick).map fun id => ⟨tick, ⟨id.raw⟩, colour⟩

/-- How many of some keys are not pending. -/
def room (keys : List MemoKey) (e : Evaluator) : Nat :=
  keys.countP fun key => (e.pendingDepth? key).isNone

def Task.colour : Task → Colour
  | .ask _ _ colour => colour
  | .compute _ _ colour => colour
  | .fold _ _ _ colour _ _ => colour
  | .look _ _ colour _ => colour

theorem Scope.mem_ticks_iff {s : Scope} {tick : Int} :
    tick ∈ s.ticks ↔ -((s.past + s.pastDepth : Nat) : Int) ≤ tick ∧
      tick ≤ (s.future + s.futureDepth : Nat) := by
  rw [ticks, List.mem_map]
  constructor
  · rintro ⟨n, hn, rfl⟩
    rw [List.mem_range] at hn
    omega
  · intro htick
    refine ⟨(tick + (s.past + s.pastDepth : Nat)).toNat, ?_, by omega⟩
    rw [List.mem_range]
    omega

theorem Scope.mem_universe {s : Scope} {tick : Int} {id : CellId} {colour : Colour}
    (htick : tick ∈ s.ticks) (hid : id.toId ∈ s.keys tick) :
    ⟨tick, id, colour⟩ ∈ s.universe colour :=
  List.mem_flatMap.mpr ⟨tick, htick, List.mem_map.mpr ⟨id.toId, hid, rfl⟩⟩

/-- A live cell of a tick with a frame has its key among those that count. -/
theorem Extent.mem_universe {s : Scope} {e : Evaluator} {a b : Nat} (h : Extent s e a b)
    {offset : Int} {id : CellId} {frame : Frame} {cell : Cell} {colour : Colour}
    (hframe : e.timeline.frame? offset = some frame) (hcell : frame.circuit.cell id = .ok cell) :
    ⟨offset, id, colour⟩ ∈ s.universe colour := by
  have hin := (h.frame_iff offset).mp ⟨frame, hframe⟩
  have hpast := h.past.reach_le
  have hfuture := h.future.reach_le
  refine Scope.mem_universe (Scope.mem_ticks_iff.mpr (by omega)) ?_
  rw [← h.keys offset frame hframe, Table.mem_keys_iff,
    cell?_eq_some_iff.mp (cell_ok_iff.mp hcell)]
  rfl

theorem countP_lt_countP {α : Type} {p q : α → Bool} {xs : List α}
    (hle : ∀ x ∈ xs, p x = true → q x = true) {x : α} (hx : x ∈ xs) (hq : q x = true)
    (hp : p x = false) : xs.countP p < xs.countP q := by
  induction xs with
  | nil => cases hx
  | cons y ys ih =>
    have hrest : ys.countP p ≤ ys.countP q :=
      List.countP_mono_left fun z hz => hle z (List.mem_cons_of_mem _ hz)
    rw [List.countP_cons, List.countP_cons]
    rcases List.mem_cons.mp hx with rfl | hx
    · simp only [hp, hq, if_true, Bool.false_eq_true, if_false]
      omega
    · -- the strict step is further on, and the head at most adds one on both sides
      have hlt := ih (fun z hz => hle z (List.mem_cons_of_mem _ hz)) hx
      have hhead := hle y List.mem_cons_self
      split
      next hy =>
        rw [if_pos (hhead hy)]
        omega
      next => omega

/-- A computation takes the room of its key. -/
theorem room_enter {keys : List MemoKey} {e : Evaluator} {key : MemoKey} (hkey : key ∈ keys)
    (hnew : e.memo.get? key = none) : room keys (e.enter key) < room keys e := by
  refine countP_lt_countP (fun other _ hother => ?_) hkey ?_ ?_
  · rw [pendingDepth?_enter] at hother
    split at hother
    next => cases hother
    next => exact hother
  · rw [pendingDepth?_of_new hnew]
    rfl
  · rw [pendingDepth?_enter, if_pos rfl]
    rfl

theorem Restored.room_eq {e e' : Evaluator} (h : Restored e e') (keys : List MemoKey) :
    room keys e' = room keys e := by
  rw [room, room]
  congr 1
  funext key
  rw [h.pending]

/-- A walk that is cut off had room for as many more keys as it was allowed to go deep. -/
theorem Walk.fuel_le_room {s : Scope} (hs : s.Steady) {fuel : Nat} {task : Task} {e e' : Evaluator}
    {answer : Except Fault Peak} (h : Walk fuel task e answer e') {x : Id}
    (hcut : answer = .error (.endless x)) {a b : Nat} (hextent : Extent s e a b) :
    fuel ≤ room (s.universe task.colour) e ∧
      ∀ offset id colour, task = .compute offset id colour →
        ⟨offset, id, colour⟩ ∈ s.universe colour := by
  induction h generalizing a b with
  | cut => exact ⟨Nat.zero_le _, fun _ _ _ htask => by cases htask⟩
  | descend hnew _ ih =>
    -- one level of depth is paid for by the room of the key that is entered
    obtain ⟨hroom, hkey⟩ := ih hcut (hextent.of_same (sameTicks_enter ..))
    have hlt := room_enter (hkey _ _ _ rfl) hnew
    exact ⟨Nat.lt_of_le_of_lt hroom hlt, fun _ _ _ htask => by cases htask⟩
  | gather hframe hcell _ _ ih =>
    obtain ⟨hroom, -⟩ := ih hcut (hextent.of_same (sameTicks_counting _))
    refine ⟨hroom, fun _ _ _ htask => ?_⟩
    cases htask
    exact hextent.mem_universe hframe hcell
  | lost _ hcell _ =>
    cases hcut
    exact absurd hcell (cell_ne_endless _)
  | wireless hwire =>
    cases hcut
    exact absurd hwire (wire_ne_endless _)
  | skip _ _ _ ih => exact ⟨(ih hcut hextent).1, fun _ _ _ htask => by cases htask⟩
  | sourceless _ _ hsource =>
    cases hcut
    exact absurd hsource (cell_ne_endless _)
  | broken _ _ _ _ ih => exact ⟨(ih hcut hextent).1, fun _ _ _ htask => by cases htask⟩
  | proceed _ _ _ hlook _ _ _ ihrest =>
    -- the input before the cut gave back all the room it took
    obtain ⟨a', b', hextent'⟩ := hlook.extent hs hextent
    have hroom := (ihrest hcut hextent').1
    rw [hlook.restored.room_eq] at hroom
    exact ⟨hroom, fun _ _ _ htask => by cases htask⟩
  | stay _ ih => exact ⟨(ih hcut hextent).1, fun _ _ _ htask => by cases htask⟩
  | known _ _ _ _ ih => exact ⟨(ih hcut hextent).1, fun _ _ _ htask => by cases htask⟩
  | unprojectable _ _ _ _ hproject =>
    cases hcut
    exact absurd hproject (project_ne_endless _)
  | imagine htiming hdead hnew hcurrent hproject hfresh _ ih =>
    rw [isStale, Bool.or_eq_false_iff] at hfresh
    rcases hextent.edge htiming hnew hcurrent with ⟨rfl, rfl⟩ | ⟨rfl, rfl⟩
    · have hnext := hextent.imaginePast hs hdead hcurrent hproject hfresh.1
      exact ⟨(ih hcut hnext).1, fun _ _ _ htask => by cases htask⟩
    · have hnext := hextent.imagineFuture hs hdead hcurrent hproject hfresh.1
      exact ⟨(ih hcut hnext).1, fun _ _ _ htask => by cases htask⟩
  | reuse | again | frameless | absent | stored | done | settle | deadEnd | adrift | stale =>
    cases hcut

end Evaluator

end PulseCircuit
