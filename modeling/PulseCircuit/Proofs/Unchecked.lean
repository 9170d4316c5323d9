import PulseCircuit.Proofs.Beats

/-!
# Edits that need no check

An edit that is validated checks the rows it touched when it is done. If it leaves a sound circuit behind, the
check finds nothing, so the edit does the same without it.

* `Indifferent`: a program that does the same in two settings and never finds a defect;
* `Unaffected`: an edit that does the same whether it is validated or not;
* `settles_createCell` and what comes after it: the edits, one by one;
* `Sound.applyAll_unaffected`: operations carried out one after the other.
-/

namespace PulseCircuit

open Circuit Edit Evaluator Running

/-! ## Programs that do the same in two settings -/

section Programs

variable {σ α β : Type}

/-- The outcome of a program with another state. -/
def inState (switch : σ → σ) : EStateM.Result Fault σ α → EStateM.Result Fault σ α
  | .ok a t => .ok a (switch t)
  | .error fault t => .error fault (switch t)

variable {s t : σ}

/-- The program finds no defect, and leaves none to be found. -/
def Spotless (program : EStateM Fault σ α) (s : σ) : Prop :=
  ∀ id defect t, program s ≠ .error (.invalid id defect) t

theorem Spotless.of_ok {program : EStateM Fault σ α} {a : α} (hrun : program s = .ok a t) :
    Spotless program s := by
  intro id defect u hfault
  rw [hrun] at hfault
  cases hfault

theorem Spotless.bind {program : EStateM Fault σ α} {rest : α → EStateM Fault σ β}
    (hfirst : Spotless program s) (hrest : ∀ a t, program s = .ok a t → Spotless (rest a) t) :
    Spotless (program >>= rest) s := by
  intro id defect u hfault
  cases hrun : program s with
  | ok a t =>
    rw [bind_of_ok hrun] at hfault
    exact hrest a t hrun id defect u hfault
  | error fault t =>
    rw [bind_of_error hrun] at hfault
    cases hfault
    exact hfirst id defect _ hrun

/-- The program keeps the invariant, finds no defect, and does the same when a setting is switched. -/
structure Indifferent (P : σ → Prop) (switch : σ → σ) (program : EStateM Fault σ α) (s : σ) : Prop where
  keeps : P (program.final s)
  spotless : Spotless program s
  same : program (switch s) = inState switch (program s)

namespace Indifferent

variable {P : σ → Prop} {switch : σ → σ}

theorem of_ok {program : EStateM Fault σ α} {a : α} (ht : P t) (hrun : program s = .ok a t)
    (hother : program (switch s) = .ok a (switch t)) : Indifferent P switch program s where
  keeps := by rwa [final_of_ok hrun]
  spotless := .of_ok hrun
  same := by rw [hother, hrun, inState]

theorem pure (hs : P s) (a : α) : Indifferent P switch (Pure.pure a) s := .of_ok hs rfl rfl

theorem bind {program : EStateM Fault σ α} {rest : α → EStateM Fault σ β}
    (hfirst : Indifferent P switch program s) (hrest : ∀ a t, P t → Indifferent P switch (rest a) t) :
    Indifferent P switch (program >>= rest) s := by
  have hkeeps := hfirst.keeps
  have hsame := hfirst.same
  cases hrun : program s with
  | ok a t =>
    rw [final_of_ok hrun] at hkeeps
    rw [hrun, inState] at hsame
    have hnext := hrest a t hkeeps
    refine ⟨?_, hfirst.spotless.bind ?_, ?_⟩
    · rw [final_bind_of_ok hrun]
      exact hnext.keeps
    · rintro b u hother
      rw [hrun] at hother
      cases hother
      exact hnext.spotless
    · rw [bind_of_ok hsame, bind_of_ok hrun, hnext.same]
  | error fault t =>
    rw [final_of_error hrun] at hkeeps
    rw [hrun, inState] at hsame
    refine ⟨?_, hfirst.spotless.bind ?_, ?_⟩
    · rw [final_bind_of_error hrun]
      exact hkeeps
    · rintro b u hother
      rw [hrun] at hother
      cases hother
    · rw [bind_of_error hsame, bind_of_error hrun, inState]

end Indifferent

end Programs

/-! ## Edits -/

namespace Edit

variable {α β : Type}

theorem spotless_ask {question : Circuit → Except Fault α}
    (h : ∀ c id defect, question c ≠ .error (.invalid id defect)) (c : Circuit) :
    Spotless (ask question) c := by
  intro id defect d hfault
  rw [ask] at hfault
  split at hfault
  next => cases hfault
  next other hother =>
    cases hfault
    exact h c id defect hother

theorem cell_ne_invalid (c : Circuit) (x : CellId) (id : Id) (defect : Defect) :
    c.cell x ≠ .error (.invalid id defect) := by
  intro hfault
  rw [Circuit.cell] at hfault
  split at hfault <;> cases hfault

theorem wire_ne_invalid (c : Circuit) (x : WireId) (id : Id) (defect : Defect) :
    c.wire x ≠ .error (.invalid id defect) := by
  intro hfault
  rw [Circuit.wire] at hfault
  split at hfault <;> cases hfault

theorem walk_ne_invalid (c : Circuit) (origin : CellId) (fuel : Nat) (stack : List Visit)
    (listed : List CellId) (id : Id) (defect : Defect) :
    c.walk origin fuel stack listed ≠ .error (.invalid id defect) := by
  induction fuel generalizing stack listed with
  | zero => cases stack <;> simp [walk]
  | succ fuel ih =>
    rcases stack with - | ⟨x | x, stack⟩
    · simp [walk]
    · cases hcell : c.cell x with
      | ok cell =>
        simp only [walk, hcell]
        exact ih _ _
      | error fault =>
        simp only [walk, hcell]
        intro hfault
        cases hfault
        exact cell_ne_invalid c x id defect hcell
    · simp only [walk]
      exact ih _ _

theorem wiresAt_ne_invalid (c : Circuit) (ids : List CellId) (id : Id) (defect : Defect) :
    c.wiresAt ids ≠ .error (.invalid id defect) := by
  intro hfault
  rw [wiresAt] at hfault
  cases hcells : ids.mapM c.cell with
  | ok cells =>
    rw [hcells] at hfault
    cases hfault
  | error fault =>
    rw [hcells] at hfault
    cases hfault
    obtain ⟨x, -, hcell⟩ := mapM_error hcells
    exact cell_ne_invalid c x id defect hcell

theorem spotless_askCell (x : CellId) (c : Circuit) : Spotless (ask (·.cell x)) c :=
  spotless_ask (cell_ne_invalid · x) c

theorem spotless_askWire (x : WireId) (c : Circuit) : Spotless (ask (·.wire x)) c :=
  spotless_ask (wire_ne_invalid · x) c

theorem spotless_askSubtree (x : CellId) (c : Circuit) : Spotless (ask (·.subtree x)) c :=
  spotless_ask (fun c => walk_ne_invalid c x _ _ _) c

theorem spotless_onCell (x : CellId) (change : Cell → Cell) (c : Circuit) :
    Spotless (onCell x change) c :=
  (spotless_askCell x c).bind fun _ _ _ => .of_ok (modify_run _ _)

theorem spotless_onWire (x : WireId) (change : Wire → Wire) (c : Circuit) :
    Spotless (onWire x change) c :=
  (spotless_askWire x c).bind fun _ _ _ => .of_ok (modify_run _ _)

theorem spotless_pure (a : α) (c : Circuit) : Spotless (pure a : Edit α) c := .of_ok rfl

theorem spotless_detachWire (x : WireId) (c : Circuit) : Spotless (detachWire x) c :=
  (spotless_askWire x c).bind fun _ c _ =>
    (spotless_onCell _ _ c).bind fun _ c _ =>
      (spotless_onCell _ _ c).bind fun _ c _ => spotless_pure _ c

theorem spotless_removeWires (removal : Removal) (doomed : List CellId) (ids : List WireId)
    (touched : List Id) (c : Circuit) : Spotless (removeWires removal doomed ids touched) c := by
  induction ids generalizing touched c with
  | nil => exact spotless_pure touched c
  | cons id ids ih =>
    exact (spotless_detachWire id c).bind fun _ c _ =>
      (Spotless.of_ok (modify_run _ c)).bind fun _ c _ => ih _ c

theorem spotless_retireAll (removal : Removal) (ids : List CellId) (c : Circuit) :
    Spotless (ids.forM fun id => retire removal id.toId) c := by
  induction ids generalizing c with
  | nil => exact spotless_pure _ c
  | cons id ids ih => exact (Spotless.of_ok (modify_run _ c)).bind fun _ c _ => ih c

theorem spotless_reparent (id parent : CellId) (c : Circuit) : Spotless (reparent id parent) c := by
  refine (spotless_askCell id c).bind fun cell c _ => ?_
  cases cell.parent with
  | none => exact fun _ _ _ h => by cases h
  | some old =>
  refine (spotless_askCell parent c).bind fun _ c _ => ?_
  refine (spotless_askSubtree id c).bind fun below c _ => ?_
  by_cases hin : below.contains parent = true
  · rw [if_pos hin]
    exact fun _ _ _ h => by cases h
  by_cases hstay : old = parent
  · rw [if_neg hin, if_pos hstay]
    exact spotless_pure old c
  · rw [if_neg hin, if_neg hstay]
    exact (spotless_onCell _ _ c).bind fun _ c _ =>
      (spotless_onCell _ _ c).bind fun _ c _ =>
        (spotless_onCell _ _ c).bind fun _ c _ => spotless_pure _ c

theorem spotless_reparent? (id : CellId) (parent : Option CellId) (c : Circuit) :
    Spotless (reparent? id parent) c := by
  cases parent with
  | none => exact spotless_pure [] c
  | some parent => exact (spotless_reparent id parent c).bind fun _ c _ => spotless_pure _ c

theorem spotless_moveSource (id : WireId) (old : CellId) (source : Option CellId) (c : Circuit) :
    Spotless (moveSource id old source) c := by
  cases source with
  | none => exact spotless_pure [] c
  | some source =>
    rw [moveSource]
    split
    · exact spotless_pure [] c
    · exact (spotless_askCell source c).bind fun _ c _ =>
        (spotless_onCell _ _ c).bind fun _ c _ =>
          (spotless_onCell _ _ c).bind fun _ c _ =>
            (spotless_onWire _ _ c).bind fun _ c _ => spotless_pure _ c

theorem spotless_moveTarget (id : WireId) (old : CellId) (target : Option CellId) (c : Circuit) :
    Spotless (moveTarget id old target) c := by
  cases target with
  | none => exact spotless_pure [] c
  | some target =>
    rw [moveTarget]
    split
    · exact spotless_pure [] c
    · exact (spotless_askCell target c).bind fun _ c _ =>
        (spotless_onCell _ _ c).bind fun _ c _ =>
          (spotless_onCell _ _ c).bind fun _ c _ =>
            (spotless_onWire _ _ c).bind fun _ c _ => spotless_pure _ c

/-! ## Leaving out the check -/

/-- The edit does the same whether it is validated or not, and finds no defect. -/
structure Unaffected (edit : Bool → Edit α) (c : Circuit) : Prop where
  same : ∀ validate, edit validate c = edit false c
  spotless : Spotless (edit false) c

/-- The edit is unaffected by the setting if it leaves a sound circuit behind. -/
def Settles (edit : Bool → Edit α) (c : Circuit) : Prop :=
  (∀ validate, ((edit validate).final c).Sound) → Unaffected edit c

variable {c : Circuit}

theorem Unaffected.of_ok {edit : Bool → Edit α} {a : α} {d : Circuit}
    (hrun : ∀ validate, edit validate c = .ok a d) : Unaffected edit c where
  same validate := (hrun validate).trans (hrun false).symm
  spotless := .of_ok (hrun false)

theorem Unaffected.fixed {edit : Edit α} (h : Spotless edit c) : Unaffected (fun _ => edit) c :=
  ⟨fun _ => rfl, h⟩

theorem Unaffected.bind {first : Bool → Edit α} {rest : Bool → α → Edit β} (hfirst : Unaffected first c)
    (hrest : ∀ a d, first false c = .ok a d → Unaffected (rest · a) d) :
    Unaffected (fun validate => first validate >>= rest validate) c where
  same validate := by
    have hsame := hfirst.same validate
    cases hrun : first false c with
    | ok a d =>
      rw [hrun] at hsame
      rw [bind_of_ok hsame, bind_of_ok hrun]
      exact (hrest a d hrun).same validate
    | error fault d =>
      rw [hrun] at hsame
      rw [bind_of_error hsame, bind_of_error hrun]
  spotless := hfirst.spotless.bind fun a d hrun => (hrest a d hrun).spotless

/-- A circuit that is sound at the end of an edit passes the check there. -/
theorem settles_validated (touched : List Id) (c : Circuit) :
    Settles (fun validate => validated validate touched) c := by
  intro hsound
  refine .of_ok (a := ()) (d := c) fun validate => ?_
  have hend := hsound validate
  rw [final_validated] at hend
  exact hend.linked.validated_run validate touched

theorem settles_validated_return (touched : List Id) (a : α) (c : Circuit) :
    Settles (fun validate => do validated validate touched; return a) c := by
  intro hsound
  refine .of_ok (a := a) (d := c) fun validate => ?_
  have hend := hsound validate
  rw [final_validated_bind] at hend
  exact bind_of_ok (hend.linked.validated_run validate touched) _

/-- What comes before the check does not depend on the setting. -/
theorem Settles.after {first : Edit α} {rest : Bool → α → Edit β} (hfirst : Spotless first c)
    (hrest : ∀ a d, Settles (rest · a) d) : Settles (fun validate => first >>= rest validate) c := by
  intro hsound
  refine (Unaffected.fixed hfirst).bind fun a d hrun => hrest a d fun validate => ?_
  rw [← final_bind_of_ok hrun]
  exact hsound validate

theorem settles_createCell (parent : CellId) (kind : CellKind) (position : Position) (c : Circuit) :
    Settles (createCell · parent kind position) c :=
  .after (spotless_askCell parent c) fun _ _ =>
    .after (.of_ok takeCellId_run) fun _ _ =>
      .after (.of_ok (putRow_run _ _)) fun _ c =>
        .after (spotless_onCell _ _ c) fun _ c => settles_validated_return _ _ c

theorem settles_createWire (source target : CellId) (colour : ColourFilter) (timing : Timing)
    (c : Circuit) : Settles (createWire · source target colour timing) c :=
  .after (spotless_askCell source c) fun _ c =>
    .after (spotless_askCell target c) fun _ _ =>
      .after (.of_ok takeWireId_run) fun _ _ =>
        .after (.of_ok (putRow_run _ _)) fun _ c =>
          .after (spotless_onCell _ _ c) fun _ c =>
            .after (spotless_onCell _ _ c) fun _ c => settles_validated_return _ _ c

theorem settles_onCell (id : CellId) (change : Cell → Cell) (touched : List Id) (c : Circuit) :
    Settles (fun validate => do onCell id change; validated validate touched) c :=
  .after (spotless_onCell id change c) fun _ c => settles_validated touched c

theorem settles_modifyCell (id : CellId) (patch : CellPatch) (c : Circuit) :
    Settles (modifyCell · id patch) c :=
  .after (spotless_reparent? id patch.parent c) fun _ c => settles_onCell id _ _ c

theorem settles_modifyWire (id : WireId) (patch : WirePatch) (c : Circuit) :
    Settles (modifyWire · id patch) c :=
  .after (spotless_askWire id c) fun _ c =>
    .after (spotless_moveSource id _ _ c) fun _ c =>
      .after (spotless_moveTarget id _ _ c) fun _ c =>
        .after (spotless_onWire id _ c) fun _ c => settles_validated _ c

theorem settles_removeWire (removal : Removal) (id : WireId) (c : Circuit) :
    Settles (removeWire · removal id) c :=
  .after (spotless_detachWire id c) fun _ c =>
    .after (.of_ok (modify_run _ c)) fun _ c => settles_validated _ c

theorem settles_removeCell (removal : Removal) (id : CellId) (c : Circuit) :
    Settles (removeCell · removal id) c := by
  refine .after (spotless_askCell id c) fun cell c => ?_
  cases cell.parent with
  | none => exact fun _ => .fixed fun _ _ _ h => by cases h
  | some parent =>
    exact .after (spotless_askSubtree id c) fun doomed c =>
      .after (spotless_ask (wiresAt_ne_invalid · doomed) c) fun wires c =>
        .after (spotless_removeWires removal doomed wires _ c) fun _ c =>
          .after (spotless_onCell parent _ c) fun _ c =>
            .after (spotless_retireAll removal doomed c) fun _ c => settles_validated _ c

end Edit

namespace Circuit

variable {c : Circuit}

namespace Sound

theorem apply_unaffected (h : c.Sound) (applied : Applied) (operation : Operation) :
    Unaffected (Circuit.apply · applied operation) c := by
  cases operation with
  | modify id fields =>
    exact (settles_modifyCell id fields c fun validate => h.modifyCell validate id fields).bind
      fun _ d _ => .fixed (spotless_pure _ d)
  | modifyWire id fields =>
    exact (settles_modifyWire id fields c fun validate => h.modifyWire validate id fields).bind
      fun _ d _ => .fixed (spotless_pure _ d)
  | tag id key =>
    exact (settles_onCell id _ _ c fun validate => h.tagCell validate id key).bind
      fun _ d _ => .fixed (spotless_pure _ d)
  | pong id => exact .fixed (spotless_pure _ c)

theorem applyAll_unaffected (h : c.Sound) (operations : List Operation) :
    Unaffected (Circuit.applyAll · operations) c := by
  have hfold : ∀ applied, Unaffected (fun validate =>
      operations.foldlM (Circuit.apply validate) applied) c := by
    induction operations generalizing c with
    | nil => exact fun applied => .fixed (spotless_pure applied c)
    | cons operation operations ih =>
      intro applied
      simp only [List.foldlM_cons]
      refine (h.apply_unaffected applied operation).bind fun applied' d hrun => ?_
      have hd := h.apply false applied operation
      rw [final_of_ok hrun] at hd
      exact ih hd applied'
  exact hfold .nothing

end Sound

end Circuit

end PulseCircuit
