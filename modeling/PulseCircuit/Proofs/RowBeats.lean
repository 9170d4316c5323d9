import PulseCircuit.Proofs.AlongRow
import PulseCircuit.Proofs.BeatEffect

/-!
# Beats of a row

When only the first cell of a row stores a pulse, a beat finds the peaks along the row and nothing else
(`OnRow.finds_cases`). So it always succeeds, and what it leaves is a row again, in which each cell looks as its
peak says (`Look.after`, `OnRow.beat`).
-/

namespace PulseCircuit

open Circuit Evaluator Running PulseCircuit.Topology

namespace Peak

/-- A creation pulse has come to rest. -/
def fills : Peak → Bool
  | .success (.creation (some _)) _ true => true
  | _ => false

theorem fills_iff {peak : Peak} : peak.fills = true ↔
    ∃ template operations, peak = .success (.creation (some template)) operations true := by
  constructor
  · intro h
    rcases peak with _ | ⟨_ | (_ | template) | _ | _, operations, _ | _⟩ <;> cases h
    exact ⟨template, operations, rfl⟩
  · rintro ⟨template, operations, rfl⟩
    rfl

theorem landed?_eq_some_iff {peak : Peak} {kind : CellKind} : peak.landed? = some kind ↔
    (∃ template operations, peak = .success (.creation (some template)) operations true ∧ template.kind = kind) ∨
      ∃ operations, peak = .success .destruction operations true ∧ kind = .slot := by
  constructor
  · intro h
    rcases peak with _ | ⟨_ | (_ | template) | _ | _, operations, _ | _⟩ <;> cases h
    · exact Or.inl ⟨template, operations, rfl, rfl⟩
    · exact Or.inr ⟨operations, rfl, rfl⟩
  · rintro (⟨template, operations, rfl, rfl⟩ | ⟨operations, rfl, rfl⟩) <;> rfl

end Peak

/-- What a beat makes of a cell with this peak, if no pulse is sheltered there. -/
def Look.after (look : Look) (peak : Peak) : Look where
  kind := peak.landed?.getD look.kind
  position := look.position
  fresh := peak.fills
  fire := .none

namespace Topology

/-- Of a row only the first cell stores a pulse, and one of this colour only. -/
structure HeadLit (look : Nat → Look) (colour : Colour) (pulse : Pulse) : Prop where
  head : (look 0).fire = Fire.none.set colour (some pulse)
  rest : ∀ i, 0 < i → (look i).fire = .none

namespace HeadLit

variable {look : Nat → Look} {colour : Colour} {pulse : Pulse}

theorem get_rest (hlit : HeadLit look colour pulse) (other : Colour) (i : Nat) (hi : 0 < i) :
    (look i).fire.get other = none := by
  rw [hlit.rest i hi]
  cases other <;> rfl

theorem get_head (hlit : HeadLit look colour pulse) (other : Colour) :
    (look 0).fire.get other = if other = colour then some pulse else none := by
  rw [hlit.head]
  split
  next h => rw [h, Fire.get_set_self]
  next h =>
    rw [Fire.get_set_of_ne _ _ h]
    cases other <;> rfl

end HeadLit

end Topology

namespace Machine

/-- The machine's circuit is a row. -/
structure OnRow (m : Machine) (n : Nat) (look : Nat → Look) : Prop where
  sound : m.Sound
  laid : m.circuit.Laid n n look

namespace OnRow

variable {m : Machine} {n : Nat} {look : Nat → Look} {colour : Colour} {pulse : Pulse}

/-- What a beat asks is answered with the peaks along the row, in the colour of the pulse, or with nothing. -/
theorem answer_cases (hon : m.OnRow n look) (hlit : HeadLit look colour pulse) {q : Query}
    {answer : Except Fault Peak} (hmem : (q, answer) ∈ m.evaluator.answered m.questions) :
    (q.id = .root ∧ answer = .ok .nothing) ∨ ∃ i < n, q.id = seat i ∧
      answer = .ok (if q.colour = colour then peakAlong look (.success pulse [] false) i else .nothing) := by
  obtain ⟨hasked, before, -, rfl⟩ := exists_of_mem_answered hmem
  obtain ⟨id, hid, hquery⟩ := List.mem_flatMap.mp hasked
  obtain ⟨other, -, rfl⟩ := List.mem_map.mp hquery
  obtain ⟨cell, hcell, rfl⟩ := List.mem_map.mp hid
  have hlive := (mem_cells_iff hon.sound.circuit.linked.keyed).mp hcell
  rcases hon.laid.only _ _ hlive with hroot | ⟨i, hi, hseat⟩
  · refine Or.inl ⟨hroot, ?_⟩
    rw [hroot]
    exact m.toHistory.reply_root hon.laid _ before
  · refine Or.inr ⟨i, hi, hseat, ?_⟩
    rw [hseat]
    have hreply := m.toHistory.reply_seat hon.laid (hlit.get_rest other) before hi
    refine hreply.trans (congrArg Except.ok ?_)
    rw [hlit.get_head]
    split
    · rfl
    · exact peakAlong_nothing look i

theorem finds_cases (hon : m.OnRow n look) (hlit : HeadLit look colour pulse) {id : CellId} {other : Colour}
    {peak : Peak} (hfinds : m.Finds id other peak) :
    peak = .nothing ∨
      ∃ i < n, id = seat i ∧ other = colour ∧ peak = peakAlong look (.success pulse [] false) i := by
  rcases hon.answer_cases hlit hfinds with ⟨-, hpeak⟩ | ⟨i, hi, hseat, hpeak⟩
  · exact Or.inl (Except.ok.inj hpeak)
  · by_cases hcolour : other = colour
    · rw [if_pos hcolour] at hpeak
      exact Or.inr ⟨i, hi, hseat, hcolour, Except.ok.inj hpeak⟩
    · rw [if_neg hcolour] at hpeak
      exact Or.inl (Except.ok.inj hpeak)

variable {gathered : Harvest}

/-- The peak a beat finds for a cell of the row. -/
theorem finds (hon : m.OnRow n look) (hlit : HeadLit look colour pulse) (hharvest : m.Harvested gathered) {i : Nat}
    (hi : i < n) : m.Finds (seat i) colour (peakAlong look (.success pulse [] false) i) := by
  obtain ⟨cell, hcell, -⟩ := hon.laid.seated i hi
  obtain ⟨peak, hfinds, -⟩ := hharvest.existsUnique_finds hon.sound hcell colour
  rcases hon.answer_cases hlit hfinds with ⟨hroot, -⟩ | ⟨k, -, hseat, hpeak⟩
  · exact absurd hroot (seat_ne_root i)
  · obtain rfl : i = k := seat_inj.mp hseat
    rw [if_pos rfl] at hpeak
    rwa [Except.ok.inj hpeak] at hfinds

theorem fills_iff (hon : m.OnRow n look) (hlit : HeadLit look colour pulse) (hharvest : m.Harvested gathered)
    {i : Nat} (hi : i < n) {template : Template} : m.Fills (seat i) template ↔ ∃ operations,
      peakAlong look (.success pulse [] false) i = .success (.creation (some template)) operations true := by
  constructor
  · rintro ⟨other, operations, hfinds⟩
    rcases hon.finds_cases hlit hfinds with hnothing | ⟨k, -, hseat, -, hpeak⟩
    · cases hnothing
    · exact ⟨operations, by rw [seat_inj.mp hseat, hpeak]⟩
  · rintro ⟨operations, hpeak⟩
    exact ⟨colour, operations, hpeak ▸ hon.finds hlit hharvest hi⟩

theorem empties_iff (hon : m.OnRow n look) (hlit : HeadLit look colour pulse) (hharvest : m.Harvested gathered)
    {i : Nat} (hi : i < n) : m.Empties (seat i) ↔
      ∃ operations, peakAlong look (.success pulse [] false) i = .success .destruction operations true := by
  constructor
  · rintro ⟨other, operations, hfinds⟩
    rcases hon.finds_cases hlit hfinds with hnothing | ⟨k, -, hseat, -, hpeak⟩
    · cases hnothing
    · exact ⟨operations, by rw [seat_inj.mp hseat, hpeak]⟩
  · rintro ⟨operations, hpeak⟩
    exact ⟨colour, operations, hpeak ▸ hon.finds hlit hharvest hi⟩

theorem not_litAbove_root (hon : m.OnRow n look) : ¬ m.circuit.LitAbove .root := by
  obtain ⟨root, hroot, -, -⟩ := hon.laid.root
  rw [litAbove_iff hroot, hon.sound.circuit.linked.rooted.top hroot]
  rintro ⟨parent, -, hparent, -⟩
  cases hparent

/-- Nothing is lit above the cells of a row. -/
theorem not_litAbove (hon : m.OnRow n look) {i : Nat} (hi : i < n) : ¬ m.circuit.LitAbove (seat i) := by
  obtain ⟨cell, hcell, hsits⟩ := hon.laid.seated i hi
  obtain ⟨root, hroot, -, hdark⟩ := hon.laid.root
  rw [litAbove_iff hcell]
  rintro ⟨parent, above, hparent, habove, hlit⟩
  cases hsits.parent.symm.trans hparent
  cases hroot.symm.trans habove
  rcases hlit with hlit | hlit
  · rw [hdark] at hlit
    cases hlit
  · exact hon.not_litAbove_root hlit

/-- A cell of the row after a beat. -/
theorem sits_after (hon : m.OnRow n look) (hlit : HeadLit look colour pulse) (hharvest : m.Harvested gathered)
    {i : Nat} (hi : i < n) {old new : Cell} (hsits : old.Sits n i (look i)) (houtline : new.outline = old.outline)
    (hdone : m.CellDone (seat i) old new) :
    new.Sits n i ((look i).after (peakAlong look (.success pulse [] false) i)) where
  id := (congrArg Cell.id houtline).trans hsits.id
  parent := (congrArg Cell.parent houtline).trans hsits.parent
  inputs := (congrArg Cell.inputs houtline).trans hsits.inputs
  position := (congrArg Cell.position houtline).trans hsits.position
  fire := hdone.unsheltered (hon.not_litAbove hi)
  kind := by
    rw [Look.after]
    cases hlanded : (peakAlong look (.success pulse [] false) i).landed? with
    | some kind =>
      rcases Peak.landed?_eq_some_iff.mp hlanded with ⟨template, operations, hpeak, rfl⟩ |
        ⟨operations, hpeak, rfl⟩
      · obtain ⟨template', hfilled, hkind⟩ :=
          hdone.filled ⟨template, (hon.fills_iff hlit hharvest hi).mpr ⟨operations, hpeak⟩⟩
        obtain ⟨operations', hpeak'⟩ := (hon.fills_iff hlit hharvest hi).mp hfilled
        cases hpeak.symm.trans hpeak'
        exact hkind
      · exact hdone.emptied ((hon.empties_iff hlit hharvest hi).mpr ⟨operations, hpeak⟩)
    | none =>
      refine (hdone.kept ?_ ?_).trans hsits.kind
      · intro hempties
        obtain ⟨operations, hpeak⟩ := (hon.empties_iff hlit hharvest hi).mp hempties
        cases hlanded.symm.trans (Peak.landed?_eq_some_iff.mpr (Or.inr ⟨operations, hpeak, rfl⟩))
      · rintro ⟨template, hfilled⟩
        obtain ⟨operations, hpeak⟩ := (hon.fills_iff hlit hharvest hi).mp hfilled
        cases hlanded.symm.trans (Peak.landed?_eq_some_iff.mpr (Or.inl ⟨template, operations, hpeak, rfl⟩))
  fresh := by
    rw [Look.after, Bool.eq_iff_iff, hdone.tagged, Peak.fills_iff]
    exact exists_congr fun template => hon.fills_iff hlit hharvest hi

/-- A beat succeeds, and what it leaves is a row again. -/
theorem beat (hon : m.OnRow n look) (hlit : HeadLit look colour pulse) :
    ∃ gathered stats m', m.Harvested gathered ∧ Machine.beat m = .ok (m.report gathered stats) m' ∧
      m'.beats = m.beats + 1 ∧
      m'.OnRow n fun i => (look i).after (peakAlong look (.success pulse [] false) i) := by
  have hpeaks : ∀ answer ∈ m.evaluator.answered m.questions, ∃ peak, answer.2 = .ok peak := by
    rintro ⟨q, answer⟩ hmem
    rcases hon.answer_cases hlit hmem with ⟨-, hpeak⟩ | ⟨i, -, -, hpeak⟩
    · exact ⟨_, hpeak⟩
    · exact ⟨_, hpeak⟩
  obtain ⟨gathered, stats, projected, hharvest, hproject, hbeat⟩ := hon.sound.beat_of_peaks hpeaks
  have hsound := hon.sound.beat
  rw [final_of_ok hbeat] at hsound
  have hlayout : m.circuit.SameLayout projected :=
    (hharvest.sameLayout_changed hon.sound).trans (.of_project hproject)
  refine ⟨gathered, stats, m.movedOn gathered projected, hharvest, hbeat, rfl, hsound, ?_, ?_, ?_, ?_⟩
  · obtain ⟨root, hroot, hinputs, hdark⟩ := hon.laid.root
    obtain ⟨new, hnew, houtline⟩ := hlayout.exists_cell hroot
    obtain ⟨new', hnew', hdone⟩ := hharvest.cellDone hon.sound hproject hroot
    cases hnew.symm.trans hnew'
    exact ⟨new, hnew, (congrArg Cell.inputs houtline).trans hinputs, hdone.unsheltered hon.not_litAbove_root⟩
  · intro i hi
    obtain ⟨old, hold, hsits⟩ := hon.laid.seated i hi
    obtain ⟨new, hnew, houtline⟩ := hlayout.exists_cell hold
    obtain ⟨new', hnew', hdone⟩ := hharvest.cellDone hon.sound hproject hold
    cases hnew.symm.trans hnew'
    exact ⟨new, hnew, hon.sits_after hlit hharvest hi hsits houtline hdone⟩
  · intro id new hnew
    obtain ⟨old, hold, -⟩ := hlayout.symm.exists_cell hnew
    exact hon.laid.only id old hold
  · intro i hi
    exact (hlayout.wire _).trans (hon.laid.wire i hi)

/-! ## Firing the first cell -/

/-- A cell of a row is fired. -/
theorem fire (hon : m.OnRow n look) {i : Nat} (hi : i < n) (colour : Colour) :
    ∃ m', Machine.fire (seat i) colour m = .ok () m' ∧ m'.beats = m.beats ∧
      m'.OnRow n (Function.update look i { look i with fire := (look i).fire.set colour (some .raw) }) := by
  obtain ⟨d, hrun, -, hlaid⟩ := fire_run hon.sound.circuit hon.laid hi m.validate colour .raw
  rw [← fireCell] at hrun
  have hfire : Machine.fire (seat i) colour m = .ok ()
      { m with circuit := d, ledger := m.ledger.record m.beats (.fired (seat i) colour) } := by
    rw [Machine.fire, bind_of_ok (get_run _), bind_of_ok (editing_of_ok hrun), modify_run]
  have hsound := hon.sound.fire (seat i) colour
  rw [final_of_ok hfire] at hsound
  exact ⟨_, hfire, rfl, hsound, hlaid⟩

end OnRow

/-- Fires a cell, and runs a beat. -/
def firedBeat (id : CellId) (colour : Colour) : Run BeatReport := do
  fire id colour
  beat

namespace OnRow

variable {m : Machine} {n : Nat} {look : Nat → Look} {colour : Colour}

/-- If the first cell of a dark row is fired, the next beat makes of each cell what its peak says. It reports the
operations of a peak if no other one has any. -/
theorem firedBeat (hon : m.OnRow n look) (hdark : ∀ i, (look i).fire = .none) (hn : 0 < n) (colour : Colour) :
    ∃ report m', Machine.firedBeat (seat 0) colour m = .ok report m' ∧
      m'.OnRow n (fun i => (look i).after (peakAlong look .raw i)) ∧
      report.beat = m.beats + 1 ∧ m'.beats = m.beats + 1 ∧
      ∀ i < n, (peakAlong look .raw i).isSuccess = true → (peakAlong look .raw i).operations.Nodup →
        (∀ k < n, k ≠ i → (peakAlong look .raw k).operations = []) →
        report.operations =
          (peakAlong look .raw i).operations.filter fun operation => !(operation matches .pong _) := by
  obtain ⟨fired, hfire, hbeats, hfired⟩ := hon.fire hn colour
  obtain ⟨lit, hlit⟩ : ∃ lit, lit = Function.update look 0
      { look 0 with fire := (look 0).fire.set colour (some .raw) } := ⟨_, rfl⟩
  rw [← hlit] at hfired
  have hhead : HeadLit lit colour .raw := by
    rw [hlit]
    constructor
    · rw [Function.update_self, hdark]
    · intro i hi
      rw [Function.update_of_ne (Nat.ne_of_gt hi), hdark]
  -- but for the pulse the row looks as it did
  have hpeaks : ∀ i, peakAlong lit (.success .raw [] false) i = peakAlong look .raw i := by
    apply peakAlong_congr
    intro i
    rw [hlit]
    cases i <;> rfl
  have hafter : ∀ i, (lit i).after (peakAlong lit (.success .raw [] false) i) =
      (look i).after (peakAlong look .raw i) := by
    intro i
    rw [hpeaks, hlit]
    cases i <;> rfl
  obtain ⟨gathered, stats, m', hharvest, hbeat, hbeats', hon'⟩ := hfired.beat hhead
  rw [funext hafter] at hon'
  refine ⟨_, m', (bind_of_ok hfire _).trans hbeat, hon', congrArg (· + 1) hbeats,
    hbeats'.trans (congrArg (· + 1) hbeats), ?_⟩
  intro i hi hsuccess hnodup hothers
  have hfinds := hfired.finds hhead hharvest hi
  rw [hpeaks] at hfinds
  have hgathered : gathered.operations = (peakAlong look .raw i).operations := by
    apply hharvest.operations_of_finds hfired.sound hfinds hsuccess hnodup
    intro id other peak hother hne
    rcases hfired.finds_cases hhead hother with rfl | ⟨k, hk, rfl, rfl, rfl⟩
    · rfl
    · rw [hpeaks]
      apply hothers k hk
      rintro rfl
      exact hne ⟨rfl, rfl⟩
  rw [report, Harvest.applied, foldl_add, hgathered]
  rfl

end OnRow

end Machine

end PulseCircuit
