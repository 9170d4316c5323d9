import PulseCircuit.Proofs.RowBeats

/-!
# Filling a row of slots

A creation cell in front of a row of slots is fired before each beat. Its pulse passes the slots that were filled
before and fills the next one. In the beat after that the slot that was just filled bars the pulse, so it takes
two beats for each slot.

* `Topology.halfFilled`: the row after some of its slots were filled;
* `OnRow.fill`, `OnRow.rest`: the two kinds of beats;
* `Topology.fills_row`: all beats until the row is full.
-/

namespace PulseCircuit

open Circuit Evaluator Running

namespace Topology

/-- A creation cell in front of slots of which the first few were filled, the last of them in the last beat if it
is fresh. -/
def halfFilled (filled : Nat) (fresh : Bool) (i : Nat) : Look where
  kind := if i = 0 then .creation else if i ≤ filled then .recording else .slot
  position := ⟨Float.ofNat i, Float.ofNat 0⟩
  fresh := fresh && i == filled
  fire := .none

section HalfFilled

variable {filled : Nat} {fresh : Bool} {i : Nat}

theorem kind_recording (hpos : 0 < i) (hi : i ≤ filled) : (halfFilled filled fresh i).kind = .recording := by
  rw [halfFilled]
  exact (if_neg (Nat.ne_of_gt hpos)).trans (if_pos hi)

theorem kind_slot (hi : filled < i) : (halfFilled filled fresh i).kind = .slot := by
  rw [halfFilled]
  exact (if_neg (by omega)).trans (if_neg (by omega))

theorem fresh_eq_false (hold : fresh = true → i < filled) : (halfFilled filled fresh i).fresh = false := by
  cases fresh with
  | false => rfl
  | true =>
    have hne : i ≠ filled := Nat.ne_of_lt (hold rfl)
    simpa [halfFilled] using hne

/-- What comes to a cell behind old ones is a creation pulse that makes recording cells. -/
theorem peakAlong_halfFilled (filled : Nat) (fresh : Bool) (hpos : 0 < i) (hi : i ≤ filled + 1)
    (hold : fresh = true → i ≤ filled) :
    ∃ template : Option Template, (template.map (·.kind)).getD .recording = .recording ∧
      peakAlong (halfFilled filled fresh) .raw i =
        Folding.creation .nothing template [] ((halfFilled filled fresh i).cell i) := by
  have hpassed : ∀ k, 0 < k → k < i →
      (halfFilled filled fresh k).kind ≠ .slot ∧ (halfFilled filled fresh k).fresh = false := by
    intro k hk hki
    constructor
    · rw [kind_recording hk (by omega)]
      decide
    · exact fresh_eq_false fun h => Nat.lt_of_lt_of_le hki (hold h)
  obtain ⟨template, hpeak, htemplate⟩ := peakAlong_creation (j := 0) rfl rfl hpos hpassed
  refine ⟨template, ?_, hpeak⟩
  rw [htemplate]
  cases hlast : lastCloneable (halfFilled filled fresh) 0 i with
  | none => rfl
  | some kind =>
    have hmem := List.mem_filter.mp (List.mem_of_getLast? hlast)
    obtain ⟨k, hk, hki, rfl⟩ := mem_kindsBetween.mp hmem.1
    exact kind_recording hk (by omega)

/-- It passes the cells that were filled before the last beat. -/
theorem peakAlong_passed (fresh : Bool) (hpos : 0 < i) (hi : i ≤ filled) (hold : fresh = true → i < filled) :
    ∃ template, peakAlong (halfFilled filled fresh) .raw i = .success (.creation template) [] false := by
  obtain ⟨template, -, hpeak⟩ := peakAlong_halfFilled filled fresh hpos (by omega) fun h =>
    Nat.le_of_lt (hold h)
  have hslot : (halfFilled filled fresh i).kind ≠ .slot := by
    rw [kind_recording hpos hi]
    decide
  exact ⟨_, hpeak.trans (creation_passed hslot (fresh_eq_false hold) template i)⟩

/-- It fills the first slot if no cell is fresh. -/
theorem peakAlong_landed (filled : Nat) : ∃ template : Template, template.kind = .recording ∧
    peakAlong (halfFilled filled false) .raw (filled + 1) = .success (.creation (some template))
      [.modify (seat (filled + 1)) (.ofKind .recording), .tag (seat (filled + 1)) .justCreated] true := by
  obtain ⟨template, hkind, hpeak⟩ := peakAlong_halfFilled filled false (Nat.succ_pos filled) (Nat.le_refl _) nofun
  rw [creation_slot (kind_slot (Nat.lt_succ_self filled)) rfl, hkind] at hpeak
  refine ⟨_, ?_, hpeak⟩
  rw [← hkind]
  cases template <;> rfl

/-- It gets no further than a fresh cell. -/
theorem peakAlong_barred (hpos : 0 < filled) : peakAlong (halfFilled filled true) .raw filled = .nothing := by
  obtain ⟨template, -, hpeak⟩ := peakAlong_halfFilled filled true hpos (Nat.le_succ filled) fun _ =>
    Nat.le_refl _
  rw [hpeak, creation_barred]
  simp [halfFilled]

theorem peakAlong_behind_slot (hi : filled + 1 < i) : peakAlong (halfFilled filled false) .raw i = .nothing := by
  obtain ⟨template, -, hpeak⟩ := peakAlong_landed filled
  exact peakAlong_of_spent (by rw [hpeak, Peak.fold_halted]) hi

theorem peakAlong_behind_fresh (hpos : 0 < filled) (hi : filled ≤ i) :
    peakAlong (halfFilled filled true) .raw i = .nothing := by
  rcases Nat.eq_or_lt_of_le hi with rfl | hlt
  · exact peakAlong_barred hpos
  · exact peakAlong_of_spent (by rw [peakAlong_barred hpos, Peak.fold_nothing]) hlt

/-- In a row without a fresh cell, only the first slot wants anything. -/
theorem idle_of_ne (hne : i ≠ filled + 1) :
    (peakAlong (halfFilled filled false) .raw i).isHalted = false ∧
      (peakAlong (halfFilled filled false) .raw i).operations = [] := by
  rcases Nat.lt_or_gt_of_ne hne with hlt | hgt
  · cases i with
    | zero => exact ⟨rfl, rfl⟩
    | succ k =>
      obtain ⟨template, hpeak⟩ := peakAlong_passed false (Nat.succ_pos k) (Nat.le_of_lt_succ hlt) nofun
      rw [hpeak]
      exact ⟨rfl, rfl⟩
  · rw [peakAlong_behind_slot hgt]
    exact ⟨rfl, rfl⟩

/-- Behind a fresh cell no slot is reached, so nothing is wanted. -/
theorem idle_of_fresh (hpos : 0 < filled) :
    (peakAlong (halfFilled filled true) .raw i).isHalted = false ∧
      (peakAlong (halfFilled filled true) .raw i).operations = [] := by
  rcases Nat.lt_or_ge i filled with hlt | hge
  · cases i with
    | zero => exact ⟨rfl, rfl⟩
    | succ k =>
      obtain ⟨template, hpeak⟩ := peakAlong_passed true (Nat.succ_pos k) (Nat.le_of_lt hlt) fun _ => hlt
      rw [hpeak]
      exact ⟨rfl, rfl⟩
  · rw [peakAlong_behind_fresh hpos hge]
    exact ⟨rfl, rfl⟩

/-- A pulse that has not come to rest leaves the kind of a cell as it was. -/
theorem after_of_moving (look : Look) {peak : Peak} (hpeak : peak.isHalted = false) :
    look.after peak = ⟨look.kind, look.position, false, .none⟩ := by
  rcases peak with _ | ⟨_ | (_ | _) | _ | _, _, _ | _⟩ <;> first | rfl | cases hpeak

/-- A beat fills the first slot of a row without a fresh cell. -/
theorem after_fill (filled i : Nat) :
    (halfFilled filled false i).after (peakAlong (halfFilled filled false) .raw i) =
      halfFilled (filled + 1) true i := by
  by_cases hi : i = filled + 1
  · subst hi
    obtain ⟨template, hkind, hpeak⟩ := peakAlong_landed filled
    rw [hpeak, Look.after, halfFilled]
    simp [Peak.landed?, Peak.fills, hkind, halfFilled]
  · have hkind : (halfFilled (filled + 1) true i).kind = (halfFilled filled false i).kind := by
      have hiff : i ≤ filled + 1 ↔ i ≤ filled := by omega
      simp only [halfFilled, hiff]
    have hold : (halfFilled (filled + 1) true i).fresh = false := by simpa [halfFilled] using hi
    rw [after_of_moving _ (idle_of_ne hi).1, ← hkind, ← hold]
    rfl

/-- A beat that fills nothing leaves the row without a fresh cell. -/
theorem after_rest (hpos : 0 < filled) (i : Nat) :
    (halfFilled filled true i).after (peakAlong (halfFilled filled true) .raw i) = halfFilled filled false i := by
  rw [after_of_moving _ (idle_of_fresh hpos).1]
  rfl

end HalfFilled

end Topology

namespace Machine.OnRow

open PulseCircuit.Topology

variable {m : Machine} {n filled : Nat}

/-- Where no cell is fresh, the next slot is filled. -/
theorem fill (hon : m.OnRow (n + 1) (halfFilled filled false)) (hfilled : filled < n) (colour : Colour) :
    ∃ report m', Machine.firedBeat (seat 0) colour m = .ok report m' ∧
      m'.OnRow (n + 1) (halfFilled (filled + 1) true) ∧ report.beat = m.beats + 1 ∧ m'.beats = m.beats + 1 ∧
      report.operations =
        [.modify (seat (filled + 1)) (.ofKind .recording), .tag (seat (filled + 1)) .justCreated] := by
  obtain ⟨report, m', hrun, hon', hbeat, hbeats, hoperations⟩ :=
    hon.firedBeat (fun _ => rfl) (Nat.succ_pos n) colour
  rw [funext (after_fill filled)] at hon'
  refine ⟨report, m', hrun, hon', hbeat, hbeats, ?_⟩
  obtain ⟨template, -, hpeak⟩ := peakAlong_landed filled
  rw [hoperations (filled + 1) (by omega) (by rw [hpeak]; rfl) (by rw [hpeak]; simp [Peak.operations])
    fun k _ hne => (idle_of_ne hne).2, hpeak]
  rfl

/-- A fresh cell bars the pulse for one beat. -/
theorem rest (hon : m.OnRow (n + 1) (halfFilled filled true)) (hpos : 0 < filled) (colour : Colour) :
    ∃ report m', Machine.firedBeat (seat 0) colour m = .ok report m' ∧
      m'.OnRow (n + 1) (halfFilled filled false) ∧ report.beat = m.beats + 1 ∧ m'.beats = m.beats + 1 ∧
      report.operations = [] := by
  obtain ⟨report, m', hrun, hon', hbeat, hbeats, hoperations⟩ :=
    hon.firedBeat (fun _ => rfl) (Nat.succ_pos n) colour
  rw [funext (after_rest hpos)] at hon'
  refine ⟨report, m', hrun, hon', hbeat, hbeats, ?_⟩
  exact hoperations 0 (Nat.succ_pos n) rfl List.nodup_nil fun k _ _ => (idle_of_fresh hpos).2

end Machine.OnRow

/-! ## Many beats -/

namespace Machine

/-- Fires a cell before each of so many beats. -/
def firedBeats (id : CellId) (colour : Colour) : Nat → Run (List BeatReport)
  | 0 => return []
  | count + 1 => do
    let reports ← firedBeats id colour count
    let report ← firedBeat id colour
    return reports ++ [report]

end Machine

namespace Topology

open Machine

/-- What is reported while slots are filled: every other beat fills the next slot. -/
structure FillsInTurn (reports : List BeatReport) : Prop where
  number : ∀ b report, reports[b]? = some report → report.beat = b + 1
  fills : ∀ j report, reports[2 * j]? = some report → report.operations =
    [.modify (seat (j + 1)) (.ofKind .recording), .tag (seat (j + 1)) .justCreated]
  rests : ∀ j report, reports[2 * j + 1]? = some report → report.operations = []

/-- An entry of a list with one more report is an entry of the list, or the report. -/
theorem getElem?_append_cases {reports : List BeatReport} {report other : BeatReport} {b : Nat}
    (h : (reports ++ [report])[b]? = some other) :
    reports[b]? = some other ∨ (b = reports.length ∧ other = report) := by
  rcases Nat.lt_trichotomy b reports.length with hlt | rfl | hgt
  · rw [List.getElem?_append_left hlt] at h
    exact Or.inl h
  · rw [List.getElem?_concat_length] at h
    exact Or.inr ⟨rfl, (Option.some.inj h).symm⟩
  · have hout : (reports ++ [report]).length ≤ b := by
      rw [List.length_append, List.length_singleton]
      exact hgt
    rw [List.getElem?_eq_none hout] at h
    cases h

theorem FillsInTurn.append {reports : List BeatReport} (h : FillsInTurn reports) {report : BeatReport}
    (hnumber : report.beat = reports.length + 1)
    (hfills : ∀ j, 2 * j = reports.length → report.operations =
      [.modify (seat (j + 1)) (.ofKind .recording), .tag (seat (j + 1)) .justCreated])
    (hrests : ∀ j, 2 * j + 1 = reports.length → report.operations = []) :
    FillsInTurn (reports ++ [report]) := by
  refine ⟨?_, ?_, ?_⟩
  · intro b other hother
    rcases getElem?_append_cases hother with hold | ⟨rfl, rfl⟩
    · exact h.number b other hold
    · exact hnumber
  · intro j other hother
    rcases getElem?_append_cases hother with hold | ⟨hj, rfl⟩
    · exact h.fills j other hold
    · exact hfills j hj
  · intro j other hother
    rcases getElem?_append_cases hother with hold | ⟨hj, rfl⟩
    · exact h.rests j other hold
    · exact hrests j hj

/-- The row after so many beats. -/
def filledAfter (beats : Nat) : Nat → Look := halfFilled ((beats + 1) / 2) (beats % 2 == 1)

theorem filledAfter_even (j : Nat) : filledAfter (2 * j) = halfFilled j false := by
  have hhalf : (2 * j + 1) / 2 = j := by omega
  have hparity : (2 * j % 2 == 1) = false := by simp
  rw [filledAfter, hhalf, hparity]

theorem filledAfter_odd (j : Nat) : filledAfter (2 * j + 1) = halfFilled (j + 1) true := by
  have hhalf : (2 * j + 1 + 1) / 2 = j + 1 := by omega
  have hparity : ((2 * j + 1) % 2 == 1) = true := by
    rw [beq_iff_eq]
    omega
  rw [filledAfter, hhalf, hparity]

variable {m : Machine} {n : Nat}

/-- One more beat, as long as the row is not full. -/
theorem firedBeat_run {b : Nat} (hon : m.OnRow (n + 1) (filledAfter b)) (hb : b < 2 * n) (colour : Colour) :
    ∃ report m', firedBeat (seat 0) colour m = .ok report m' ∧ m'.OnRow (n + 1) (filledAfter (b + 1)) ∧
      report.beat = m.beats + 1 ∧ m'.beats = m.beats + 1 ∧
      (∀ j, 2 * j = b → report.operations =
        [.modify (seat (j + 1)) (.ofKind .recording), .tag (seat (j + 1)) .justCreated]) ∧
      ∀ j, 2 * j + 1 = b → report.operations = [] := by
  rcases Nat.even_or_odd' b with ⟨j, rfl | rfl⟩
  · rw [filledAfter_even] at hon
    obtain ⟨report, m', hrun, hon', hbeat, hbeats, hoperations⟩ := hon.fill (by omega) colour
    rw [← filledAfter_odd] at hon'
    refine ⟨report, m', hrun, hon', hbeat, hbeats, ?_, ?_⟩
    · intro k hk
      obtain rfl : k = j := by omega
      exact hoperations
    · intro k hk
      omega
  · rw [filledAfter_odd] at hon
    obtain ⟨report, m', hrun, hon', hbeat, hbeats, hoperations⟩ := hon.rest (Nat.succ_pos j) colour
    rw [← filledAfter_even] at hon'
    refine ⟨report, m', hrun, hon', hbeat, hbeats, ?_, fun _ _ => hoperations⟩
    intro k hk
    omega

/-- Until the row is full every beat succeeds, and fills the next slot or waits for a beat. -/
theorem firedBeats_run (hon : m.OnRow (n + 1) (filledAfter 0)) (hbeats : m.beats = 0) (colour : Colour)
    {b : Nat} (hb : b ≤ 2 * n) :
    ∃ reports m', firedBeats (seat 0) colour b m = .ok reports m' ∧ reports.length = b ∧ m'.beats = b ∧
      m'.OnRow (n + 1) (filledAfter b) ∧ FillsInTurn reports := by
  induction b with
  | zero => exact ⟨[], m, rfl, rfl, hbeats, hon, by simp, by simp, by simp⟩
  | succ b ih =>
    obtain ⟨reports, m', hrun, hlength, hcount, hon', hturns⟩ := ih (by omega)
    obtain ⟨report, m'', hrun', hon'', hbeat, hbeats', hfills, hrests⟩ := firedBeat_run hon' hb colour
    rw [hcount] at hbeat hbeats'
    rw [← hlength] at hbeat hfills hrests
    refine ⟨reports ++ [report], m'', ?_, ?_, hbeats', hon'', hturns.append hbeat hfills hrests⟩
    · rw [firedBeats, bind_of_ok hrun, bind_of_ok hrun']
      rfl
    · rw [List.length_append, hlength]
      rfl

/-- A machine that was made for a creation cell in front of slots. -/
theorem onRow_start {c : Circuit} (hsound : c.Sound)
    (hlaid : c.Laid (n + 1) (n + 1) (lookAt (.creation :: List.replicate n .slot))) (validate : Bool) (limit : Nat) :
    ((ofCircuit validate c).setHistoryLimit limit).OnRow (n + 1) (filledAfter 0) := by
  refine ⟨⟨hsound, ?_⟩, hlaid.congr ?_⟩
  · intro d hd
    rw [setHistoryLimit, ofCircuit, List.take_nil] at hd
    cases hd
  · intro i hi
    cases i with
    | zero => rfl
    | succ k =>
      have hslot : (List.replicate n CellKind.slot)[k]? = some .slot :=
        List.getElem?_replicate_of_lt (Nat.lt_of_succ_lt_succ hi)
      rw [lookAt, List.getD_cons_succ, List.getD_eq_getElem?_getD, hslot]
      rfl

/-- A creation cell in front of a row of slots, fired before each beat, fills one slot in two beats, however
much of the past is remembered. -/
theorem fills_row (validate checked : Bool) (n limit : Nat) (colour : Colour) :
    ∃ c, chain validate (.creation :: List.replicate n .slot) .initial =
        .ok ((List.range (n + 1)).map seat) c ∧
      ∀ b ≤ 2 * n, ∃ reports m,
        firedBeats (seat 0) colour b ((ofCircuit checked c).setHistoryLimit limit) = .ok reports m ∧
          reports.length = b ∧ FillsInTurn reports ∧
          ∀ i, 0 < i → i ≤ n → ∃ cell, m.circuit.cell (seat i) = .ok cell ∧
            cell.kind = if i ≤ (b + 1) / 2 then .recording else .slot := by
  obtain ⟨c, hchain, hsound, hlaid⟩ := chain_run validate (.creation :: List.replicate n .slot)
  rw [List.length_cons, List.length_replicate] at hchain hlaid
  refine ⟨c, hchain, fun b hb => ?_⟩
  have hstart := onRow_start hsound hlaid checked limit
  obtain ⟨reports, m, hrun, hlength, -, hon, hturns⟩ := firedBeats_run hstart rfl colour hb
  refine ⟨reports, m, hrun, hlength, hturns, fun i hpos hi => ?_⟩
  obtain ⟨cell, hcell, hsits⟩ := hon.laid.seated i (by omega)
  refine ⟨cell, cell_ok_iff.mpr hcell, hsits.kind.trans ?_⟩
  split
  next hle => exact kind_recording hpos hle
  next hlt => exact kind_slot (by omega)

end Topology

end PulseCircuit
