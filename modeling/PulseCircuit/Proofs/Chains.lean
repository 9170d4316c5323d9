import PulseCircuit.Proofs.AlongRow

/-!
# Pulses along chains

What comes of a pulse that is stored at the head of a chain, by the kinds of the cells alone.

* `PassesRaw`: a raw pulse passes up to the first cell that creates or destroys. From there on it is a creation
  or destruction pulse (`Creates`, `Destroys`), until it has changed a cell;
* `PassesPing`: a ping is answered up to the first stopper behind the head;
* `chain_peaks`: so it is in any chain, whatever was recorded and asked before.
-/

namespace PulseCircuit

open Circuit Evaluator

namespace Topology

/-- The kinds of the cells of a chain strictly between two places. -/
def between (kinds : List CellKind) (j i : Nat) : List CellKind := (kinds.take i).drop (j + 1)

/-- No cell of a chain before this place turns raw pulses into others. -/
def Plain (kinds : List CellKind) (i : Nat) : Prop :=
  ∀ kind ∈ kinds.take i, kind ≠ .creation ∧ kind ≠ .destruction

/-- Behind a creation cell a creation pulse goes on to the first slot, and fills it. -/
structure Creates (kinds : List CellKind) (peak : Nat → Except Fault Peak) (j : Nat) : Prop where
  carried : ∀ i < kinds.length, j < i → .slot ∉ between kinds j (i + 1) →
    ∃ template, peak i = .ok (.success (.creation template) [] false)
  landed : ∀ s, j < s → kinds[s]? = some .slot → .slot ∉ between kinds j s →
    ∃ template, peak s = .ok (.success (.creation template)
      [.modify (seat s) (.ofKind (((between kinds j s).filter (·.isCloneable)).getLastD .recording)),
        .tag (seat s) .justCreated] true)
  spent : ∀ i < kinds.length, .slot ∈ between kinds j i → peak i = .ok (.fail [])

/-- Behind a destruction cell a destruction pulse goes on to the first cell that can be emptied, and empties it. -/
structure Destroys (kinds : List CellKind) (peak : Nat → Except Fault Peak) (j : Nat) : Prop where
  carried : ∀ i < kinds.length, j < i → (∀ kind ∈ between kinds j (i + 1), kind.isDestroyable = false) →
    peak i = .ok (.success .destruction [] false)
  landed : ∀ e kind, j < e → kinds[e]? = some kind → kind.isDestroyable = true →
    (∀ kind ∈ between kinds j e, kind.isDestroyable = false) →
    peak e = .ok (.success .destruction [.modify (seat e) (.ofKind .slot)] true)
  spent : ∀ i < kinds.length, (∃ kind ∈ between kinds j i, kind.isDestroyable = true) →
    peak i = .ok (.fail [])

/-- How a raw pulse at the head of a chain fares. -/
structure PassesRaw (kinds : List CellKind) (peak : Nat → Except Fault Peak) : Prop where
  raw : ∀ i < kinds.length, Plain kinds i → peak i = .ok (.success .raw [] false)
  creates : ∀ j, Plain kinds j → kinds[j]? = some .creation → Creates kinds peak j
  destroys : ∀ j, Plain kinds j → kinds[j]? = some .destruction → Destroys kinds peak j

/-- How a ping at the head of a chain fares. -/
structure PassesPing (kinds : List CellKind) (peak : Nat → Except Fault Peak) : Prop where
  answered : ∀ i < kinds.length, .stopper ∉ between kinds 0 (i + 1) →
    peak i = .ok (.success .ping (pongs i) false)
  stopped : ∀ i < kinds.length, .stopper ∈ between kinds 0 (i + 1) → peak i = .ok (.fail [])

variable {kinds : List CellKind} {look : Nat → Look} {peak : Nat → Except Fault Peak} {i j : Nat}

theorem mem_take_iff {kind : CellKind} : kind ∈ kinds.take i ↔ ∃ k < i, kinds[k]? = some kind := by
  simp only [List.mem_iff_getElem?, List.getElem?_take]
  constructor
  · rintro ⟨k, hk⟩
    split at hk
    next hki => exact ⟨k, hki, hk⟩
    next => cases hk
  · rintro ⟨k, hki, hk⟩
    exact ⟨k, by rw [if_pos hki, hk]⟩

theorem mem_between_iff {kind : CellKind} :
    kind ∈ between kinds j i ↔ ∃ k, j < k ∧ k < i ∧ kinds[k]? = some kind := by
  simp only [between, List.mem_iff_getElem?, List.getElem?_drop, List.getElem?_take]
  constructor
  · rintro ⟨k, hk⟩
    split at hk
    next hki => exact ⟨j + 1 + k, by omega, hki, hk⟩
    next => cases hk
  · rintro ⟨k, hjk, hki, hk⟩
    have hplace : j + 1 + (k - (j + 1)) = k := by omega
    exact ⟨k - (j + 1), by rw [hplace, if_pos hki, hk]⟩

theorem between_subset_succ (kinds : List CellKind) (j i : Nat) : between kinds j i ⊆ between kinds j (i + 1) := by
  intro kind hmem
  obtain ⟨k, hjk, hki, hk⟩ := mem_between_iff.mp hmem
  exact mem_between_iff.mpr ⟨k, hjk, Nat.lt_succ_of_lt hki, hk⟩

/-- If there are such kinds between two places, one of them comes first. -/
theorem exists_first {p : CellKind → Prop} (h : ∃ kind ∈ between kinds j i, p kind) :
    ∃ s kind, j < s ∧ s < i ∧ kinds[s]? = some kind ∧ p kind ∧ ∀ before ∈ between kinds j s, ¬ p before := by
  classical
  have hsome : ∃ s, j < s ∧ s < i ∧ ∃ kind, kinds[s]? = some kind ∧ p kind := by
    obtain ⟨kind, hmem, hp⟩ := h
    obtain ⟨s, hjs, hsi, hs⟩ := mem_between_iff.mp hmem
    exact ⟨s, hjs, hsi, kind, hs, hp⟩
  obtain ⟨hjs, hsi, kind, hs, hp⟩ := Nat.find_spec hsome
  refine ⟨Nat.find hsome, kind, hjs, hsi, hs, hp, ?_⟩
  intro before hbefore hpbefore
  obtain ⟨k, hjk, hks, hk⟩ := mem_between_iff.mp hbefore
  exact Nat.find_min hsome hks ⟨hjk, by omega, before, hk, hpbefore⟩

/-! ## Rows of given kinds -/

/-- A row of cells of these kinds, none of them just filled. -/
structure Wears (look : Nat → Look) (kinds : List CellKind) : Prop where
  kind : ∀ k, (look k).kind = kinds.getD k .relay
  old : ∀ k, (look k).fresh = false

namespace Wears

theorem kind_of_getElem? (hwears : Wears look kinds) {kind : CellKind} (hk : kinds[i]? = some kind) :
    (look i).kind = kind := by
  rw [hwears.kind, List.getD_eq_getElem?_getD, hk]
  rfl

theorem getElem?_eq (hwears : Wears look kinds) (hi : i < kinds.length) : kinds[i]? = some (look i).kind := by
  rw [hwears.kind, List.getD_eq_getElem?_getD, List.getElem?_eq_getElem hi]
  rfl

theorem kindsBetween_eq (hwears : Wears look kinds) (hi : i ≤ kinds.length) :
    kindsBetween look j i = between kinds j i := by
  apply List.ext_getElem
  · rw [kindsBetween, between, List.length_map, List.length_range', List.length_drop, List.length_take,
      Nat.min_eq_left hi]
  · intro k hk hk'
    rw [kindsBetween, List.length_map, List.length_range'] at hk
    have hplace := hwears.getElem?_eq (i := j + 1 + k) (by omega)
    rw [List.getElem?_eq_getElem (by omega)] at hplace
    simp only [kindsBetween, between, List.getElem_map, List.getElem_range', List.getElem_drop,
      List.getElem_take, Nat.one_mul]
    exact (Option.some.inj hplace).symm

theorem peakAlong_of_plain (hwears : Wears look kinds) (hi : i ≤ kinds.length) (hplain : Plain kinds i) :
    peakAlong look .raw i = .raw := by
  apply peakAlong_raw
  intro k hk
  exact hplain _ (mem_take_iff.mpr ⟨k, hk, hwears.getElem?_eq (by omega)⟩)

theorem creates (hwears : Wears look kinds) (hpeak : ∀ i < kinds.length, peak i = .ok (peakAlong look .raw i))
    (hplain : Plain kinds j) (hcreation : kinds[j]? = some .creation) : Creates kinds peak j := by
  have hj := (List.getElem?_eq_some_iff.mp hcreation).1
  have hraw := hwears.peakAlong_of_plain (Nat.le_of_lt hj) hplain
  -- up to the first slot the pulse has passed all cells
  have harrives : ∀ i < kinds.length, j < i → .slot ∉ between kinds j i →
      ∃ template : Option Template,
        peakAlong look .raw i = Folding.creation .nothing template [] ((look i).cell i) ∧
          template.map (·.kind) = lastCloneable look j i := by
    intro i hi hji hnot
    refine peakAlong_creation hraw (hwears.kind_of_getElem? hcreation) hji fun k hjk hki => ⟨?_, hwears.old k⟩
    intro hslot
    refine hnot (mem_between_iff.mpr ⟨k, hjk, hki, ?_⟩)
    rw [hwears.getElem?_eq (by omega), hslot]
  have hlands : ∀ s, j < s → kinds[s]? = some .slot → .slot ∉ between kinds j s →
      ∃ template, peakAlong look .raw s = .success (.creation template)
        [.modify (seat s) (.ofKind (((between kinds j s).filter (·.isCloneable)).getLastD .recording)),
          .tag (seat s) .justCreated] true := by
    intro s hjs hslot hnot
    have hs := (List.getElem?_eq_some_iff.mp hslot).1
    obtain ⟨template, harrived, htemplate⟩ := harrives s hs hjs hnot
    rw [creation_slot (hwears.kind_of_getElem? hslot) (hwears.old s), htemplate, lastCloneable,
      hwears.kindsBetween_eq (Nat.le_of_lt hs), ← List.getLastD_eq_getLast?] at harrived
    exact ⟨_, harrived⟩
  refine ⟨?_, ?_, ?_⟩
  · intro i hi hji hnot
    have hhere : (look i).kind ≠ .slot := by
      intro hslot
      refine hnot (mem_between_iff.mpr ⟨i, hji, Nat.lt_succ_self i, ?_⟩)
      rw [hwears.getElem?_eq hi, hslot]
    obtain ⟨template, harrived, -⟩ := harrives i hi hji fun hslot => hnot (between_subset_succ _ _ _ hslot)
    rw [hpeak i hi, harrived, creation_passed hhere (hwears.old i)]
    exact ⟨_, rfl⟩
  · intro s hjs hslot hnot
    rw [hpeak s (List.getElem?_eq_some_iff.mp hslot).1]
    obtain ⟨template, hlanded⟩ := hlands s hjs hslot hnot
    exact ⟨template, congrArg Except.ok hlanded⟩
  · intro i hi hslot
    -- the pulse has come to rest in the first slot
    obtain ⟨s, kind, hjs, hsi, hs, rfl, hfirst⟩ := exists_first (p := (· = .slot)) ⟨_, hslot, rfl⟩
    obtain ⟨template, hlanded⟩ := hlands s hjs hs fun hmem => hfirst _ hmem rfl
    rw [hpeak i hi, peakAlong_of_spent (by rw [hlanded, Peak.fold_halted]) hsi]
    rfl

theorem destroys (hwears : Wears look kinds) (hpeak : ∀ i < kinds.length, peak i = .ok (peakAlong look .raw i))
    (hplain : Plain kinds j) (hdestruction : kinds[j]? = some .destruction) : Destroys kinds peak j := by
  have hj := (List.getElem?_eq_some_iff.mp hdestruction).1
  have hraw := hwears.peakAlong_of_plain (Nat.le_of_lt hj) hplain
  have harrives : ∀ i < kinds.length, j < i → (∀ kind ∈ between kinds j i, kind.isDestroyable = false) →
      peakAlong look .raw i = Folding.destruction .nothing [] ((look i).cell i) := by
    intro i hi hji hwhole
    apply peakAlong_destruction hraw (hwears.kind_of_getElem? hdestruction) hji
    intro k hjk hki
    exact hwhole _ (mem_between_iff.mpr ⟨k, hjk, hki, hwears.getElem?_eq (by omega)⟩)
  have hlands : ∀ e kind, j < e → kinds[e]? = some kind → kind.isDestroyable = true →
      (∀ kind ∈ between kinds j e, kind.isDestroyable = false) →
      peakAlong look .raw e = .success .destruction [.modify (seat e) (.ofKind .slot)] true := by
    intro e kind hje he hdestroyable hwhole
    have hhere : ((look e).cell e).kind.isDestroyable = true := by
      rw [Look.kind_cell, hwears.kind_of_getElem? he, hdestroyable]
    rw [harrives e (List.getElem?_eq_some_iff.mp he).1 hje hwhole, Folding.destruction, hhere]
    rfl
  refine ⟨?_, ?_, ?_⟩
  · intro i hi hji hwhole
    have hhere : ((look i).cell i).kind.isDestroyable = false :=
      hwhole _ (mem_between_iff.mpr ⟨i, hji, Nat.lt_succ_self i, hwears.getElem?_eq hi⟩)
    rw [hpeak i hi, harrives i hi hji fun kind hmem => hwhole kind (between_subset_succ _ _ _ hmem),
      Folding.destruction, hhere]
    rfl
  · intro e kind hje he hdestroyable hwhole
    rw [hpeak e (List.getElem?_eq_some_iff.mp he).1, hlands e kind hje he hdestroyable hwhole]
  · intro i hi hsome
    -- the pulse has come to rest in the first cell that could be emptied
    obtain ⟨e, kind, hje, hei, he, hdestroyable, hfirst⟩ := exists_first hsome
    have hlanded := hlands e kind hje he hdestroyable fun kind hmem => Bool.not_eq_true _ ▸ hfirst kind hmem
    rw [hpeak i hi, peakAlong_of_spent (by rw [hlanded, Peak.fold_halted]) hei]
    rfl

theorem passesRaw (hwears : Wears look kinds)
    (hpeak : ∀ i < kinds.length, peak i = .ok (peakAlong look .raw i)) : PassesRaw kinds peak := by
  refine ⟨?_, fun j => hwears.creates hpeak, fun j => hwears.destroys hpeak⟩
  intro i hi hplain
  rw [hpeak i hi, hwears.peakAlong_of_plain (Nat.le_of_lt hi) hplain]
  rfl

theorem passesPing (hwears : Wears look kinds)
    (hpeak : ∀ i < kinds.length, peak i = .ok (peakAlong look (.success .ping [] false) i)) :
    PassesPing kinds peak := by
  have hanswers : ∀ i < kinds.length, .stopper ∉ between kinds 0 (i + 1) →
      peakAlong look (.success .ping [] false) i = .success .ping (pongs i) false := by
    intro i hi hnot
    apply peakAlong_ping
    intro k hpos hki hstopper
    refine hnot (mem_between_iff.mpr ⟨k, hpos, Nat.lt_succ_of_le hki, ?_⟩)
    rw [hwears.getElem?_eq (by omega), hstopper]
  refine ⟨fun i hi hnot => by rw [hpeak i hi, hanswers i hi hnot], ?_⟩
  intro i hi hstopper
  -- the ping is swallowed by the first stopper
  obtain ⟨s, kind, hpos, hsi, hs, rfl, hfirst⟩ := exists_first (p := (· = .stopper)) ⟨_, hstopper, rfl⟩
  obtain ⟨t, rfl⟩ : ∃ t, s = t + 1 := ⟨s - 1, by omega⟩
  have hlast := hanswers t (by omega) fun hmem => hfirst _ hmem rfl
  have hswallows : Peak.nothing.fold (peakAlong look (.success .ping [] false) t) (hop look t) = .nothing := by
    have hfold : Peak.nothing.fold (.success .ping (pongs t) false) (hop look t) =
        Folding.ping .nothing (pongs t) (hop look t).target := rfl
    have hhere : (hop look t).target.kind = .stopper := hwears.kind_of_getElem? hs
    rw [hlast, hfold, Folding.ping, if_pos hhere]
  rw [hpeak i hi, peakAlong_of_spent hswallows (by omega)]
  rfl

end Wears

/-- A chain in which a cell was fired still has its kinds. -/
theorem wears_fired (kinds : List CellKind) (fire : Fire) :
    Wears (Function.update (lookAt kinds) 0 { lookAt kinds 0 with fire := fire }) kinds := by
  constructor
  · intro k
    cases k <;> rfl
  · intro k
    cases k <;> rfl

/-- In a chain of any kinds whose head stores a pulse of some colour, what is answered about the cells in this
colour is what the kinds make of a raw pulse or of a ping. It does not depend on what was recorded and asked
before. -/
theorem chain_peaks (validate : Bool) {kinds : List CellKind} (hkinds : kinds ≠ []) (colour : Colour) :
    ∃ c, chain validate kinds .initial = .ok ((List.range kinds.length).map seat) c ∧
      (∃ d, fire validate (seat 0) colour .raw c = .ok () d ∧
        ∀ validate' past future queries, PassesRaw kinds fun i =>
          ((ofHistory validate' d past future).asked queries).reply ⟨seat i, colour, .now⟩) ∧
      ∃ d, fire validate (seat 0) colour .ping c = .ok () d ∧
        ∀ validate' past future queries, PassesPing kinds fun i =>
          ((ofHistory validate' d past future).asked queries).reply ⟨seat i, colour, .now⟩ := by
  obtain ⟨c, hchain, hsound, hlaid⟩ := chain_run validate kinds
  have hpeak : ∀ pulse, ∃ d, fire validate (seat 0) colour pulse c = .ok () d ∧
      ∀ validate' past future queries, ∀ i < kinds.length,
        ((ofHistory validate' d past future).asked queries).reply ⟨seat i, colour, .now⟩ =
          .ok (peakAlong (Function.update (lookAt kinds) 0
            { lookAt kinds 0 with fire := Fire.none.set colour (some pulse) }) (.success pulse [] false) i) := by
    intro pulse
    obtain ⟨d, hrun, -, hlit⟩ := fire_run hsound hlaid (List.length_pos_of_ne_nil hkinds) validate colour pulse
    refine ⟨d, hrun, fun validate' past future queries i hi => ?_⟩
    have hdark : ∀ k, 0 < k → ((Function.update (lookAt kinds) 0
        { lookAt kinds 0 with fire := Fire.none.set colour (some pulse) } k).fire.get colour) = none := by
      intro k hk
      rw [Function.update_of_ne (Nat.ne_of_gt hk)]
      cases colour <;> rfl
    have hreply := History.reply_seat ⟨validate', d, past, future⟩ hlit hdark queries hi
    rw [Function.update_self, Fire.get_set_self] at hreply
    exact hreply
  refine ⟨c, hchain, ?_, ?_⟩
  · obtain ⟨d, hrun, hanswers⟩ := hpeak .raw
    exact ⟨d, hrun, fun validate' past future queries =>
      (wears_fired kinds _).passesRaw (hanswers validate' past future queries)⟩
  · obtain ⟨d, hrun, hanswers⟩ := hpeak .ping
    exact ⟨d, hrun, fun validate' past future queries =>
      (wears_fired kinds _).passesPing (hanswers validate' past future queries)⟩

/-- A stopper is copied into the first slot behind it, and nothing comes out of the slot. -/
theorem chain_peaks_stopper :
    ∃ c d, chain true [.relay, .creation, .recording, .stopper, .relay, .slot, .slot] .initial =
        .ok [⟨1⟩, ⟨2⟩, ⟨3⟩, ⟨4⟩, ⟨5⟩, ⟨6⟩, ⟨7⟩] c ∧
      fire true ⟨1⟩ .red .raw c = .ok () d ∧
      (ofHistory true d [] []).reply ⟨⟨2⟩, .red, .now⟩ = .ok (.success .raw [] false) ∧
      (∃ template, (ofHistory true d [] []).reply ⟨⟨6⟩, .red, .now⟩ = .ok (.success (.creation template)
        [.modify ⟨6⟩ (.ofKind .stopper), .tag ⟨6⟩ .justCreated] true)) ∧
      (ofHistory true d [] []).reply ⟨⟨7⟩, .red, .now⟩ = .ok (.fail []) := by
  have hsome : [CellKind.relay, .creation, .recording, .stopper, .relay, .slot, .slot] ≠ [] := by decide
  obtain ⟨c, hchain, ⟨d, hfire, hpasses⟩, -⟩ := chain_peaks true hsome .red
  have hraw := hpasses true [] [] []
  have hcreates := hraw.creates 1 (by unfold Plain; decide) rfl
  exact ⟨c, d, hchain, hfire, hraw.raw 1 (by decide) (by unfold Plain; decide),
    hcreates.landed 5 (by decide) rfl (by decide), hcreates.spent 6 (by decide) (by decide)⟩

end Topology

end PulseCircuit
