import PulseCircuit.Proofs.Chart
import PulseCircuit.Proofs.Consistent

/-!
# Circuits that fade

Left alone a circuit loses a lit cell on each way up with every tick, until it is quiet and stays as it is.
So the ticks before that show different states, and the first one after it is a dead end:

* `Circuit.after`: the circuit after some ticks;
* `litDepth_of_sameState`: circuits that show the same state have lit cells equally deep;
* `History.aside_of_lit`, `History.aside_of_quiet`: what is shown beside a circuit of which nothing else is
  recorded.
-/

namespace PulseCircuit

namespace Circuit

variable {c d : Circuit}

/-! ## Quiet circuits -/

theorem isQuiet_iff : c.isQuiet = true ↔
    ∀ id cell, c.cell? id = some cell → cell.fire.isLit = false := by
  rw [isQuiet, List.all_eq_true]
  constructor
  · intro hall id cell hcell
    simpa using hall cell (mem_cells_iff_exists.mpr ⟨id, hcell⟩)
  · intro hall cell hmem
    obtain ⟨id, hcell⟩ := mem_cells_iff_exists.mp hmem
    simpa using hall id cell hcell

theorem countLit_ascent_of_quiet (hquiet : c.isQuiet = true) (fuel : Nat) (id : CellId) :
    countLit (c.ascent fuel id) = 0 := by
  induction fuel generalizing id with
  | zero =>
    rw [ascent]
    cases hcell : c.cell? id with
    | none => rfl
    | some cell => simp [countLit, isQuiet_iff.mp hquiet id cell hcell]
  | succ fuel ih =>
    rw [ascent]
    cases hcell : c.cell? id with
    | none => rfl
    | some cell =>
      rw [countLit_cons, isQuiet_iff.mp hquiet id cell hcell]
      cases cell.parent with
      | none => rfl
      | some parent => exact ih parent

theorem Rooted.isQuiet_iff_litDepth (h : c.Rooted) : c.isQuiet = true ↔ c.litDepth = 0 := by
  constructor
  · intro hquiet
    exact Nat.le_zero.mp (litDepth_le_iff.mpr fun cell _ =>
      Nat.le_of_eq (countLit_ascent_of_quiet hquiet _ _))
  · intro hdark
    refine isQuiet_iff.mpr fun id cell hcell => ?_
    rw [h.fire_eq_none hdark hcell]
    rfl

/-! ## The same state -/

/-- What the lit cells on a way up depend on. -/
def litAt (c : Circuit) (id : CellId) : Option (Option CellId × Bool) :=
  (c.cell? id).map fun cell => (cell.parent, cell.fire.isLit)

theorem litAt_congr (hparents : d.parentOf = c.parentOf)
    (hfires : ∀ id, (d.cell? id).map Cell.fire = (c.cell? id).map Cell.fire) : d.litAt = c.litAt := by
  funext id
  have hparent := congrFun hparents id
  have hfire := hfires id
  cases hd : d.cell? id <;> cases hc : c.cell? id <;>
    simp_all [litAt, Circuit.parentOf, ofCells]

theorem countLit_ascent_congr (h : c.litAt = d.litAt) (fuel : Nat) (id : CellId) :
    countLit (c.ascent fuel id) = countLit (d.ascent fuel id) := by
  induction fuel generalizing id with
  | zero =>
    have hid := congrFun h id
    rw [litAt, litAt] at hid
    rw [ascent, ascent]
    cases hc : c.cell? id <;> cases hd : d.cell? id <;> simp_all [countLit]
  | succ fuel ih =>
    have hid := congrFun h id
    rw [litAt, litAt] at hid
    rw [ascent, ascent]
    cases hc : c.cell? id with
    | none =>
      cases hd : d.cell? id with
      | none => rfl
      | some other => simp [hc, hd] at hid
    | some cell =>
      cases hd : d.cell? id with
      | none => simp [hc, hd] at hid
      | some other =>
        simp only [hc, hd, Option.map_some, Option.some.injEq, Prod.mk.injEq] at hid
        rw [countLit_cons, countLit_cons, hid.1, hid.2]
        cases other.parent with
        | none => rfl
        | some parent => rw [ih parent]

theorem litDepth_le_of_litAt (hc : c.Keyed) (hd : d.Keyed) (hsize : c.size = d.size)
    (h : c.litAt = d.litAt) : c.litDepth ≤ d.litDepth := by
  refine hc.litDepth_le_iff.mpr fun id cell hcell => ?_
  have hid := congrFun h id
  rw [litAt, litAt, hcell] at hid
  obtain ⟨other, hother, -⟩ := Option.map_eq_some_iff.mp hid.symm
  rw [hsize, countLit_ascent_congr h]
  exact hd.litDepth_le_iff.mp (Nat.le_refl _) id other hother

theorem isLit_of_beq {fire other : Fire} (h : (fire == other) = true) : fire.isLit = other.isLit := by
  obtain ⟨red, green, blue⟩ := fire
  obtain ⟨red', green', blue'⟩ := other
  have hsame : ∀ {a b : Option Pulse}, (a == b) = true → a.isSome = b.isSome := by
    rintro (- | a) (- | b) h
    · rfl
    · cases h
    · cases h
    · rfl
  change (red == red' && (green == green' && blue == blue')) = true at h
  simp only [Bool.and_eq_true] at h
  rw [Fire.isLit, Fire.isLit, hsame h.1, hsame h.2.1, hsame h.2.2]

theorem litAt_of_beq {cell other : Cell} (h : (cell == other) = true) :
    cell.parent = other.parent ∧ cell.fire.isLit = other.fire.isLit := by
  change (cell.id == other.id && (cell.parent == other.parent && (cell.kind == other.kind &&
    (cell.position == other.position && (cell.children == other.children &&
      (cell.inputs == other.inputs && (cell.outputs == other.outputs &&
        (cell.fire == other.fire && cell.tags == other.tags)))))))) = true at h
  simp only [Bool.and_eq_true] at h
  obtain ⟨-, hparent, -, -, -, -, -, hfire, -⟩ := h
  exact ⟨by simpa using hparent, isLit_of_beq hfire⟩

/-- Of two circuits with the same ids that show the same state, the same cells are lit. -/
theorem litAt_of_sameState (hkeys : c.live.keys = d.live.keys) (h : c.sameState d = true) :
    c.litAt = d.litAt := by
  rw [sameState, Bool.and_eq_true, List.all_eq_true] at h
  funext id
  rw [litAt, litAt]
  cases hrow : c.live.get? id with
  | none =>
    have hother : d.live.get? id = none := by
      rw [Table.get?_eq_none_iff, ← hkeys]
      exact Table.get?_eq_none_iff.mp hrow
    rw [cell?_of_absent hrow, cell?_of_absent hother]
  | some row =>
    have hbeq := h.2 _ (Table.get?_eq_some_iff.mp hrow)
    cases hother : d.live.get? id with
    | none => simp [hother] at hbeq
    | some other =>
      simp only [hother] at hbeq
      rcases row with cell | wire <;> rcases other with cell' | wire'
      · rw [cell?_eq_some_iff.mpr hrow, cell?_eq_some_iff.mpr hother]
        obtain ⟨hparent, hfire⟩ := litAt_of_beq hbeq
        rw [Option.map_some, Option.map_some, hparent, hfire]
      · cases hbeq
      · cases hbeq
      · rw [cell?, cell?, hrow, hother]

theorem size_eq_of_keys (hkeys : c.live.keys = d.live.keys) : c.size = d.size := by
  have hlength := congrArg List.length hkeys
  simpa [Table.keys, size, Table.size] using hlength

/-- So each of them has lit cells as deep as the other. -/
theorem litDepth_of_sameState (hc : c.Keyed) (hd : d.Keyed) (hkeys : c.live.keys = d.live.keys)
    (h : c.sameState d = true) : c.litDepth = d.litDepth := by
  have hlit := litAt_of_sameState hkeys h
  have hsize := size_eq_of_keys hkeys
  exact Nat.le_antisymm (litDepth_le_of_litAt hc hd hsize hlit)
    (litDepth_le_of_litAt hd hc hsize.symm hlit.symm)

/-! ## What projection leaves alone -/

theorem wire?_of_project {validate : Bool} (hproject : c.project validate = .ok d) (id : WireId) :
    d.wire? id = c.wire? id := by
  obtain ⟨kept, -, rfl⟩ := project_ok hproject
  rw [keepPulses_eq_mapCells, wire?_mapCells]

theorem live_project_iff {validate : Bool} (hproject : c.project validate = .ok d) {id : CellId} :
    (∃ cell, d.cell? id = some cell) ↔ ∃ cell, c.cell? id = some cell := by
  obtain ⟨kept, -, rfl⟩ := project_ok hproject
  rw [keepPulses_eq_mapCells, cell?_mapCells]
  cases c.cell? id <;> simp

/-! ## The ticks to come -/

/-- The circuit after some ticks, each projected from the one before. What cannot be projected stays. -/
def after (validate : Bool) (c : Circuit) : Nat → Circuit
  | 0 => c
  | k + 1 =>
    match (c.after validate k).project validate with
    | .ok d => d
    | .error _ => c.after validate k

/-- All ticks before this one hold a pulse. -/
def LitBefore (validate : Bool) (c : Circuit) (k : Nat) : Prop :=
  ∀ j < k, (c.after validate j).isQuiet = false

theorem litBefore_zero (validate : Bool) (c : Circuit) : c.LitBefore validate 0 :=
  fun j hj => absurd hj (Nat.not_lt_zero j)

theorem LitBefore.succ {validate : Bool} {k : Nat} (hlit : c.LitBefore validate k)
    (hk : (c.after validate k).isQuiet = false) : c.LitBefore validate (k + 1) := by
  intro j hj
  rcases Nat.lt_succ_iff_lt_or_eq.mp hj with hlt | rfl
  · exact hlit j hlt
  · exact hk

theorem LitBefore.mono {validate : Bool} {j k : Nat} (hlit : c.LitBefore validate k) (hle : j ≤ k) :
    c.LitBefore validate j :=
  fun i hi => hlit i (Nat.lt_of_lt_of_le hi hle)

namespace Linked

variable {validate : Bool}

theorem after (h : c.Linked) (validate : Bool) (k : Nat) : (c.after validate k).Linked := by
  induction k with
  | zero => exact h
  | succ k ih =>
    rw [Circuit.after]
    split
    next hproject => exact ih.of_project hproject
    next => exact ih

/-- None of the ticks fails. -/
theorem project_after (h : c.Linked) (validate : Bool) (k : Nat) :
    (c.after validate k).project validate = .ok (c.after validate (k + 1)) := by
  obtain ⟨d, hproject⟩ := (h.after validate k).project_ok validate
  rw [Circuit.after, hproject]

theorem keys_after (h : c.Linked) (validate : Bool) (k : Nat) :
    (c.after validate k).live.keys = c.live.keys := by
  induction k with
  | zero => rfl
  | succ k ih => exact (keys_project (h.project_after validate k)).trans ih

theorem wire?_after (h : c.Linked) (validate : Bool) (k : Nat) (id : WireId) :
    (c.after validate k).wire? id = c.wire? id := by
  induction k with
  | zero => rfl
  | succ k ih => exact (wire?_of_project (h.project_after validate k) id).trans ih

theorem live_after_iff (h : c.Linked) (validate : Bool) (k : Nat) {id : CellId} :
    (∃ cell, (c.after validate k).cell? id = some cell) ↔ ∃ cell, c.cell? id = some cell := by
  induction k with
  | zero => rfl
  | succ k ih => exact (live_project_iff (h.project_after validate k)).trans ih

theorem placed_after (h : c.Linked) (hplaced : c.Placed) (validate : Bool) (k : Nat) :
    (c.after validate k).Placed := by
  induction k with
  | zero => exact hplaced
  | succ k ih =>
    obtain ⟨kept, -, hkept⟩ := Circuit.project_ok (h.project_after validate k)
    rw [hkept]
    exact ih.keepPulses kept

/-- Every tick is darker than the one before, as long as there is something lit. -/
theorem litDepth_after_lt (h : c.Linked) {k : Nat} (hlit : (c.after validate k).isQuiet = false) :
    (c.after validate (k + 1)).litDepth < (c.after validate k).litDepth := by
  have hrooted := (h.after validate k).rooted
  have hle := hrooted.litDepth_project (h.project_after validate k)
  have hne : (c.after validate k).litDepth ≠ 0 := by
    intro hdark
    rw [hrooted.isQuiet_iff_litDepth.mpr hdark] at hlit
    cases hlit
  omega

theorem litDepth_after_le (h : c.Linked) (validate : Bool) (k : Nat) :
    (c.after validate k).litDepth ≤ c.litDepth := by
  induction k with
  | zero => exact Nat.le_refl _
  | succ k ih =>
    have hle := (h.after validate k).rooted.litDepth_project (h.project_after validate k)
    omega

/-- A darker tick is another state. -/
theorem sameState_after (h : c.Linked) {j k : Nat}
    (hlt : (c.after validate j).litDepth < (c.after validate k).litDepth) :
    (c.after validate j).sameState (c.after validate k) = false := by
  rw [Bool.eq_false_iff]
  intro hsame
  have hkeys := (h.keys_after validate j).trans (h.keys_after validate k).symm
  have heq := litDepth_of_sameState (h.after validate j).keyed (h.after validate k).keyed hkeys hsame
  omega

/-- A quiet tick is followed by one that shows the same. -/
theorem sameState_after_of_quiet (h : c.Linked) (hplaced : c.Placed) {k : Nat}
    (hquiet : (c.after validate k).isQuiet = true) :
    (c.after validate (k + 1)).sameState (c.after validate k) = true := by
  have hrooted := (h.after validate k).rooted
  have hdark := hrooted.isQuiet_iff_litDepth.mp hquiet
  have hsame : c.after validate (k + 1) = c.after validate k :=
    hrooted.project_eq_self hdark (h.project_after validate k)
  rw [hsame]
  -- here it matters that the quiet circuit equals itself
  exact Circuit.sameState_self ((h.placed_after hplaced validate k).numeric_of_dark
    fun {_ _} hcell => hrooted.fire_eq_none hdark hcell)

end Linked

end Circuit

/-! ## On the chart -/

namespace History

/-- Nothing is recorded but the present. -/
def alone (validate : Bool) (c : Circuit) : History := ⟨validate, c, [], []⟩

variable {validate : Bool} {c : Circuit}

theorem given_alone (side : Timing) : (alone validate c).given side = [] := by
  cases side <;> rfl

theorem aside_zero (h : History) (side : Timing) : h.aside side 0 = .circuit h.present := by
  rw [aside, Circuit.ahead]

/-- The tick after one that is shown is projected from it, with another one behind it. -/
theorem aside_succ (validate : Bool) (c : Circuit) (side : Timing) {k : Nat}
    (hall : ∀ j ≤ k, (alone validate c).aside side j = .circuit (c.after validate j)) :
    ∃ behind, (alone validate c).aside side (k + 1) = (c.after validate k).onward validate behind ∧
      ∀ b ∈ behind, ∃ j, k = j + 1 ∧ b = c.after validate j := by
  have hn : ((alone validate c).given side).length ≤ k := by
    rw [given_alone]
    exact Nat.zero_le _
  have hhead : ((alone validate c).given side.flip).head? = none := by
    rw [given_alone]
    rfl
  cases k with
  | zero =>
    refine ⟨none, Circuit.ahead_succ hn (hall 0 (Nat.le_refl _)) (Or.inl ⟨rfl, hhead.symm⟩), ?_⟩
    rintro b ⟨⟩
  | succ j =>
    refine ⟨some (c.after validate j), Circuit.ahead_succ hn (hall (j + 1) (Nat.le_refl _))
      (Or.inr ⟨j, _, rfl, hall j (Nat.le_succ j), rfl⟩), ?_⟩
    rintro b ⟨⟩
    exact ⟨j, rfl, rfl⟩

/-- As long as the ticks before it are lit, a tick is shown. -/
theorem aside_of_lit (h : c.Linked) (side : Timing) {k : Nat} (hlit : c.LitBefore validate k) :
    (alone validate c).aside side k = .circuit (c.after validate k) := by
  induction k using Nat.strongRecOn with
  | ind k ih =>
    cases k with
    | zero => exact aside_zero _ _
    | succ k =>
      obtain ⟨behind, hnext, hbehind⟩ := aside_succ validate c side fun j (hj : j ≤ k) =>
        ih j (Nat.lt_succ_of_le hj) (hlit.mono (Nat.le_succ_of_le hj))
      have hdarker := h.litDepth_after_lt (hlit k (Nat.lt_succ_self k))
      have hnew : (c.after validate (k + 1)).sameState (c.after validate k) = false :=
        h.sameState_after hdarker
      have hother : behind.any (c.after validate (k + 1)).sameState = false := by
        cases behind with
        | none => rfl
        | some b =>
          obtain ⟨j, rfl, rfl⟩ := hbehind b rfl
          have hbefore := h.litDepth_after_lt (hlit j (by omega))
          exact h.sameState_after (Nat.lt_trans hdarker hbefore)
      rw [hnext, Circuit.onward, h.project_after validate k]
      simp only [hnew, hother, Bool.or_self, Bool.false_eq_true, if_false]

/-- After the first quiet tick there is nothing new. -/
theorem aside_of_quiet (h : c.Linked) (hplaced : c.Placed) (side : Timing) {k : Nat}
    (hlit : c.LitBefore validate k) (hquiet : (c.after validate k).isQuiet = true) :
    (alone validate c).aside side (k + 1) = .deadEnd := by
  obtain ⟨behind, hnext, -⟩ := aside_succ validate c side fun j (hj : j ≤ k) =>
    aside_of_lit h side (hlit.mono hj)
  rw [hnext, Circuit.onward, h.project_after validate k]
  simp only [h.sameState_after_of_quiet hplaced hquiet, Bool.true_or, if_true]

end History

end PulseCircuit
