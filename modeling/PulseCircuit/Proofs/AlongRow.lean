import PulseCircuit.Proofs.Harvest
import PulseCircuit.Proofs.Laid
import PulseCircuit.Proofs.QueryOrder

/-!
# Pulses along a row

In a row each cell has at most one input, and it looks at the present. So the peaks of the cells are made one of
the other, from the pulse the first cell stores (`peakAlong`).

* `peakAlong_raw`, `peakAlong_creation`, `peakAlong_destruction`, `peakAlong_ping`: how far each kind of pulse
  goes, and what it has become by then;
* `History.reply_seat`: these peaks are what any evaluator answers.
-/

namespace PulseCircuit

open Circuit Evaluator PulseCircuit.Topology

/-- A cell of a row as it looks at some place, without links and pulses. -/
def Look.cell (look : Look) (i : Nat) : Cell :=
  { Cell.fresh (seat i) none look.kind look.position with tags := if look.fresh then [.justCreated] else [] }

theorem Look.kind_cell (look : Look) (i : Nat) : (look.cell i).kind = look.kind := rfl

theorem Look.hasTag_cell (look : Look) (i : Nat) : (look.cell i).hasTag .justCreated = look.fresh := by
  rw [Cell.hasTag, Look.cell]
  cases look.fresh <;> rfl

namespace Topology

/-- The way from a cell in a row to the next one. -/
def hop (look : Nat → Look) (i : Nat) : Hop := ⟨(look i).cell i, (look (i + 1)).cell (i + 1), link i⟩

/-- The peaks of the cells in a row, from that of the first. -/
def peakAlong (look : Nat → Look) (start : Peak) : Nat → Peak
  | 0 => start
  | i + 1 => Peak.nothing.fold (peakAlong look start i) (hop look i)

variable {look : Nat → Look} {start : Peak}

theorem peakAlong_congr {other : Nat → Look} (hsame : ∀ i, (look i).cell i = (other i).cell i) (start : Peak)
    (i : Nat) : peakAlong look start i = peakAlong other start i := by
  induction i with
  | zero => rfl
  | succ i ih => rw [peakAlong, peakAlong, ih, hop, hop, hsame, hsame]

/-- Nothing comes of nothing. -/
theorem peakAlong_nothing (look : Nat → Look) (i : Nat) : peakAlong look .nothing i = .nothing := by
  induction i with
  | zero => rfl
  | succ i ih => rw [peakAlong, ih, Peak.fold_nothing]

/-- Behind a cell that passes nothing on there is nothing. -/
theorem peakAlong_of_spent {i : Nat} (hspent : Peak.nothing.fold (peakAlong look start i) (hop look i) = .nothing)
    {k : Nat} (hk : i < k) : peakAlong look start k = .nothing := by
  induction k, hk using Nat.le_induction with
  | base => exact hspent
  | succ k _ ih => rw [peakAlong, ih, Peak.fold_nothing]

/-! ## Raw pulses -/

/-- A raw pulse passes as long as no cell turns it into another one. -/
theorem peakAlong_raw {i : Nat} (hkind : ∀ k < i, (look k).kind ≠ .creation ∧ (look k).kind ≠ .destruction) :
    peakAlong look .raw i = .raw := by
  induction i with
  | zero => rfl
  | succ i ih =>
    rw [peakAlong, ih fun k hk => hkind k (Nat.lt_succ_of_lt hk)]
    exact Peak.fold_raw (Or.inl rfl) (hkind i (Nat.lt_succ_self i))

/-! ## Creation pulses -/

/-- The kinds of the cells strictly between two places of a row. -/
def kindsBetween (look : Nat → Look) (j i : Nat) : List CellKind :=
  (List.range' (j + 1) (i - (j + 1))).map fun k => (look k).kind

theorem kindsBetween_succ {j i : Nat} (hi : j < i) :
    kindsBetween look j (i + 1) = kindsBetween look j i ++ [(look i).kind] := by
  have hcount : i + 1 - (j + 1) = i - (j + 1) + 1 := by omega
  have hlast : j + 1 + (i - (j + 1)) = i := by omega
  rw [kindsBetween, kindsBetween, hcount, List.range'_1_concat, List.map_append, hlast]
  rfl

theorem mem_kindsBetween {j i : Nat} {kind : CellKind} :
    kind ∈ kindsBetween look j i ↔ ∃ k, j < k ∧ k < i ∧ (look k).kind = kind := by
  simp only [kindsBetween, List.mem_map, List.mem_range'_1]
  constructor
  · rintro ⟨k, hk, hkind⟩
    exact ⟨k, by omega, by omega, hkind⟩
  · rintro ⟨k, hjk, hki, hkind⟩
    exact ⟨k, by omega, hkind⟩

/-- The last kind a creation pulse can take up between two places. -/
def lastCloneable (look : Nat → Look) (j i : Nat) : Option CellKind :=
  ((kindsBetween look j i).filter (·.isCloneable)).getLast?

theorem lastCloneable_succ {j i : Nat} (hi : j < i) : lastCloneable look j (i + 1) =
    if (look i).kind.isCloneable then some (look i).kind else lastCloneable look j i := by
  rw [lastCloneable, kindsBetween_succ hi, List.filter_append, List.getLast?_append]
  split
  next h => simp [h]
  next h => simp [h, lastCloneable]

/-- A cell that was not just filled bars no creation pulse, as nothing has been gathered there. -/
theorem bars_eq_false {new : Look} (hold : new.fresh = false) {i : Nat} :
    ((new.cell i).hasTag .justCreated || Peak.nothing.claims (new.cell i).id) = false := by
  rw [Look.hasTag_cell, hold]
  rfl

/-- A creation pulse ends in a slot that was not just filled. -/
theorem creation_slot {new : Look} (hkind : new.kind = .slot) (hold : new.fresh = false)
    (template : Option Template) (i : Nat) :
    Folding.creation .nothing template [] (new.cell i) =
      .success (.creation (some (template.getD (.fallback new.position))))
        [.modify (seat i) (.ofKind ((template.map (·.kind)).getD .recording)), .tag (seat i) .justCreated]
        true := by
  rw [Folding.creation, bars_eq_false hold, if_neg Bool.false_ne_true, Look.kind_cell, if_pos hkind]
  cases template <;> rfl

/-- A creation pulse passes any other cell that was not just filled. -/
theorem creation_passed {new : Look} (hkind : new.kind ≠ .slot) (hold : new.fresh = false)
    (template : Option Template) (i : Nat) :
    Folding.creation .nothing template [] (new.cell i) =
      .success (.creation (if new.kind.isCloneable then some (new.cell i).template else template)) []
        false := by
  rw [Folding.creation, bars_eq_false hold, if_neg Bool.false_ne_true, Look.kind_cell, if_neg hkind]
  rfl

/-- A creation pulse gets no further than a cell that was just filled. -/
theorem creation_barred {new : Look} (hfresh : new.fresh = true) (template : Option Template) (i : Nat) :
    Folding.creation .nothing template [] (new.cell i) = .nothing := by
  rw [Folding.creation, Look.hasTag_cell, hfresh, Bool.true_or, if_pos rfl]

/-- From a creation cell that a raw pulse gets to, a creation pulse goes on until it meets a slot, or a cell that
was just filled. Its template is of the last cloneable kind it has passed. -/
theorem peakAlong_creation {j i : Nat} (hraw : peakAlong look start j = .raw) (hkind : (look j).kind = .creation)
    (hi : j < i) (hpassed : ∀ k, j < k → k < i → (look k).kind ≠ .slot ∧ (look k).fresh = false) :
    ∃ template : Option Template,
      peakAlong look start i = Folding.creation .nothing template [] ((look i).cell i) ∧
        template.map (·.kind) = lastCloneable look j i := by
  induction i, hi using Nat.le_induction with
  | base =>
    refine ⟨none, ?_, by simp [lastCloneable, kindsBetween]⟩
    have hturned : Peak.nothing.fold .raw (hop look j) = Folding.raw .nothing [] (hop look j) := rfl
    rw [peakAlong, hraw, hturned, Folding.raw, show (hop look j).source.kind = .creation from hkind]
    rfl
  | succ i hi ih =>
    obtain ⟨template, hpeak, htemplate⟩ := ih fun k hjk hki => hpassed k hjk (Nat.lt_succ_of_lt hki)
    obtain ⟨hslot, hold⟩ := hpassed i hi (Nat.lt_succ_self i)
    refine ⟨_, by rw [peakAlong, hpeak, creation_passed hslot hold]; rfl, ?_⟩
    rw [lastCloneable_succ hi, ← htemplate]
    split <;> rfl

/-! ## Destruction pulses -/

/-- From a destruction cell that a raw pulse gets to, a destruction pulse goes on until it meets a cell it can
empty. -/
theorem peakAlong_destruction {j i : Nat} (hraw : peakAlong look start j = .raw)
    (hkind : (look j).kind = .destruction) (hi : j < i)
    (hpassed : ∀ k, j < k → k < i → (look k).kind.isDestroyable = false) :
    peakAlong look start i = Folding.destruction .nothing [] ((look i).cell i) := by
  induction i, hi using Nat.le_induction with
  | base =>
    have hturned : Peak.nothing.fold .raw (hop look j) = Folding.raw .nothing [] (hop look j) := rfl
    rw [peakAlong, hraw, hturned, Folding.raw, show (hop look j).source.kind = .destruction from hkind]
    rfl
  | succ i hi ih =>
    have hwhole : ((look i).cell i).kind.isDestroyable = false := hpassed i hi (Nat.lt_succ_self i)
    rw [peakAlong, ih fun k hjk hki => hpassed k hjk (Nat.lt_succ_of_lt hki), Folding.destruction, hwhole]
    rfl

/-! ## Pings -/

/-- The answers of all cells behind the first up to some place. -/
def pongs (i : Nat) : List Operation := (List.range' 1 i).map fun k => .pong (seat k)

theorem gather_pongs (i : Nat) : Folding.gather .nothing (pongs i) = pongs i := by
  have hnodup : (pongs i).Nodup := by
    refine (List.nodup_range' 1).map fun k l hsame => ?_
    exact seat_inj.mp (Operation.pong.inj hsame)
  have hexact : ∀ operation ∈ pongs i, Exact operation := by
    intro operation hmem
    obtain ⟨k, -, rfl⟩ := List.mem_map.mp hmem
    exact Machine.exact_pong _
  exact addAllNew_eq_append_of_exact hexact hnodup

/-- A ping goes on until it meets a stopper, and each cell on its way answers. -/
theorem peakAlong_ping {i : Nat} (hkind : ∀ k, 0 < k → k ≤ i → (look k).kind ≠ .stopper) :
    peakAlong look (.success .ping [] false) i = .success .ping (pongs i) false := by
  induction i with
  | zero => rfl
  | succ i ih =>
    rw [peakAlong, ih fun k hpos hk => hkind k hpos (Nat.le_succ_of_le hk)]
    have hfold : Peak.nothing.fold (.success .ping (pongs i) false) (hop look i) =
        Folding.ping .nothing (pongs i) (hop look i).target := rfl
    have hpasses : (hop look i).target.kind ≠ .stopper := hkind (i + 1) (Nat.succ_pos i) (Nat.le_refl _)
    rw [hfold, Folding.ping, if_neg hpasses, gather_pongs, pongs, pongs, List.range'_1_concat, List.map_append,
      Nat.add_comm 1 i]
    rfl

end Topology

/-! ## What is answered -/

namespace Circuit.Laid

variable {c : Circuit} {n : Nat} {look : Nat → Look} {colour : Colour} {T : Int → Prospect}

/-- A query about a cell in a row settles on its peak along the row. -/
theorem settles (hlaid : c.Laid n n look) (hdark : ∀ i, 0 < i → (look i).fire.get colour = none)
    (hsight : T 0 = .circuit c) {i : Nat} (hi : i < n) :
    Settles T (i + 1) (.ask 0 (seat i) colour)
      (.ok (peakAlong look (.ofPulse? ((look 0).fire.get colour) []) i)) := by
  induction i with
  | zero =>
    obtain ⟨cell, hcell, hsits⟩ := hlaid.seated 0 hi
    have hlive := cell_ok_iff.mpr hcell
    rw [peakAlong, ← hsits.fire]
    cases hfinal : (Peak.ofPulse? (cell.fire.get colour) []).isFinal with
    | true => exact .descend (.stored hsight hlive hfinal)
    | false =>
      refine .descend (.gather hsight hlive hfinal ?_)
      rw [hsits.inputs, if_neg (by omega)]
      exact .done
  | succ i ih =>
    obtain ⟨source, hsource, hbefore⟩ := hlaid.seated i (by omega)
    obtain ⟨target, htarget, hsits⟩ := hlaid.seated (i + 1) hi
    have hnothing : Peak.ofPulse? (target.fire.get colour) [] = .nothing := by
      rw [hsits.fire, hdark (i + 1) (by omega)]
      rfl
    have hinputs : target.inputs = [feed (i + 1)] := by
      rw [hsits.inputs, if_pos ⟨by omega, hi⟩]
    have hfresh : target.hasTag .justCreated = ((look (i + 1)).cell (i + 1)).hasTag .justCreated := by
      rw [hsits.fresh, Look.hasTag_cell]
    have hfold : ∀ next, Peak.nothing.fold next ⟨source, target, link i⟩ = Peak.nothing.fold next (hop look i) :=
      fun next => Peak.fold_congr hbefore.kind hsits.id hsits.kind hsits.position hfresh .nothing next
    have hwire : c.wire (feed (i + 1)) = .ok (link i) := wire_ok_iff.mpr (hlaid.wire i hi)
    have hlook : Settles T (i + 1) (.look 0 source.id colour (link i).timing.flip)
        (.ok (peakAlong look (.ofPulse? ((look 0).fire.get colour) []) i)) := by
      rw [hbefore.id]
      exact .onward hsight (ih (by omega))
    refine .descend (.gather hsight (cell_ok_iff.mpr htarget) (by rw [hnothing]; rfl) ?_)
    rw [hnothing, hinputs, peakAlong, ← hfold]
    cases hfinal : (Peak.nothing.fold (peakAlong look (.ofPulse? ((look 0).fire.get colour) []) i)
        ⟨source, target, link i⟩).isFinal with
    | true => exact .settle hwire rfl (cell_ok_iff.mpr hsource) hlook hfinal
    | false => exact .proceed hwire rfl (cell_ok_iff.mpr hsource) hlook hfinal .done

/-- The root stays dark. -/
theorem settles_root (hlaid : c.Laid n n look) (hsight : T 0 = .circuit c) :
    Settles T 1 (.ask 0 .root colour) (.ok .nothing) := by
  obtain ⟨root, hroot, hinputs, hfire⟩ := hlaid.root
  have hnothing : Peak.ofPulse? (root.fire.get colour) [] = .nothing := by
    rw [hfire]
    cases colour <;> rfl
  refine .descend (.gather hsight (cell_ok_iff.mpr hroot) (by rw [hnothing]; rfl) ?_)
  rw [hnothing, hinputs]
  exact .done

/-- There are no more cells in a row than in the circuit. -/
theorem le_length_cells (hlaid : c.Laid n n look) : n ≤ c.cells.length := by
  have hnodup : ((List.range n).map seat).Nodup := List.nodup_range.map fun _ _ => seat_inj.mp
  have hsubset : (List.range n).map seat ⊆ c.cells.map (·.id) := by
    intro id hid
    obtain ⟨i, hi, rfl⟩ := List.mem_map.mp hid
    obtain ⟨cell, hcell, hsits⟩ := hlaid.seated i (List.mem_range.mp hi)
    exact List.mem_map.mpr ⟨cell, mem_cells_iff_exists.mpr ⟨_, hcell⟩, hsits.id⟩
  have hle := (List.subperm_of_subset hnodup hsubset).length_le
  simpa using hle

end Circuit.Laid

namespace History

variable {h : History} {n : Nat} {look : Nat → Look}

/-- A query about a cell in a row is answered with its peak along the row, whatever was recorded and asked
before. -/
theorem reply_seat (h : History) (hlaid : h.present.Laid n n look) {colour : Colour}
    (hdark : ∀ i, 0 < i → (look i).fire.get colour = none) (queries : List Query) {i : Nat} (hi : i < n) :
    (h.fresh.asked queries).reply ⟨seat i, colour, .now⟩ =
      .ok (peakAlong look (.ofPulse? ((look 0).fire.get colour) []) i) := by
  have hdeep : i + 1 ≤ h.fresh.depthBound := by
    have hle := hlaid.le_length_cells
    have hlt := length_presentKeys_lt h colour
    rw [presentKeys, List.length_map] at hlt
    omega
  have hsettles := (hlaid.settles (T := h.chart fun _ => false) hdark rfl hi).mono hdeep
  obtain ⟨cell, hcell, -⟩ := hlaid.seated i hi
  have hanswer := (Asked.queries h _ queries).reply_eq (q := ⟨seat i, colour, .now⟩) (straight_untrusted _)
    (.onward rfl hsettles)
  rw [cell_ok_iff.mpr hcell] at hanswer
  exact hanswer

/-- A query about the root is answered with nothing. -/
theorem reply_root (h : History) (hlaid : h.present.Laid n n look) (colour : Colour) (queries : List Query) :
    (h.fresh.asked queries).reply ⟨.root, colour, .now⟩ = .ok .nothing := by
  have hdeep : 1 ≤ h.fresh.depthBound :=
    Nat.lt_of_le_of_lt (Nat.zero_le _) (length_presentKeys_lt h colour)
  have hsettles : Settles (h.chart fun _ => false) h.fresh.depthBound (.ask 0 .root colour) (.ok .nothing) :=
    (hlaid.settles_root rfl).mono hdeep
  obtain ⟨root, hroot, -⟩ := hlaid.root
  have hanswer := (Asked.queries h _ queries).reply_eq (q := ⟨.root, colour, .now⟩) (straight_untrusted _)
    (.onward rfl hsettles)
  rw [cell_ok_iff.mpr hroot] at hanswer
  exact hanswer

end History

end PulseCircuit
