import PulseCircuit.Circuit.Removal
import PulseCircuit.Proofs.Edits

/-!
# What edits are made of

All that edits do to a circuit, apart from creating rows, comes down to three changes: rows change under their
ids, a row is retired, and the archive is purged. A relation between circuits that allows for these, and can be
carried from one change to the next, holds from before to after of every such edit, also of one that fails
half-way.

* `Edit.Leads`: a relation holds from where an edit starts to where it ends;
* `Tolerant`: a relation that allows for the three changes;
* `Tolerant.modifyCell`, `Tolerant.removeCell` and the like: what a tolerant relation says of each edit.
-/

namespace PulseCircuit

namespace Edit

/-- Wherever the edit starts, the relation leads from there to where the edit ends. -/
def Leads {α : Type} (R : Circuit → Circuit → Prop) (edit : Edit α) : Prop := ∀ c, R c (edit.final c)

end Edit

/-- A relation that allows for rows to change under their ids, to be retired and to be purged. -/
structure Tolerant (R : Circuit → Circuit → Prop) : Prop where
  trans : ∀ {c d e}, R c d → R d e → R c e
  changed : ∀ {c d : Circuit}, d.live.keys = c.live.keys → d.archive = c.archive → d.ids = c.ids → R c d
  retired : ∀ removal id c, R c (Circuit.retired removal id c)
  purged : ∀ c : Circuit, R c { c with archive := .empty, ids := c.ids.purge.2 }

namespace Tolerant

open Edit Running

variable {α β : Type} {R : Circuit → Circuit → Prop}

/-! ## Small edits -/

theorem pure (h : Tolerant R) (a : α) : Leads R (Pure.pure a : Edit α) := fun _ => h.changed rfl rfl rfl

theorem throw (h : Tolerant R) (fault : Fault) : Leads R (throw fault : Edit α) :=
  fun _ => h.changed rfl rfl rfl

/-- What comes after a fault is not run. -/
theorem throw_bind (h : Tolerant R) (fault : Fault) (rest : α → Edit β) :
    Leads R ((MonadExcept.throw fault : Edit α) >>= rest) := fun _ => h.changed rfl rfl rfl

theorem bind (h : Tolerant R) {edit : Edit α} {rest : α → Edit β} (hedit : Leads R edit)
    (hrest : ∀ a, Leads R (rest a)) : Leads R (edit >>= rest) := by
  intro c
  exact final_bind (P := R c) (hedit c) fun a d _ hd => h.trans hd (hrest a d)

theorem ite {p : Prop} [Decidable p] {yes no : Edit α} (hyes : Leads R yes) (hno : Leads R no) :
    Leads R (if p then yes else no) := by
  split
  · exact hyes
  · exact hno

theorem ask (h : Tolerant R) (question : Circuit → Except Fault α) : Leads R (ask question) := by
  intro c
  cases hquestion : question c with
  | ok a =>
    rw [final_of_ok (ask_of_ok hquestion)]
    exact h.changed rfl rfl rfl
  | error fault =>
    rw [final_of_error (ask_of_error hquestion)]
    exact h.changed rfl rfl rfl

theorem onCell (h : Tolerant R) (id : CellId) (change : Cell → Cell) : Leads R (onCell id change) :=
  h.bind (h.ask _) fun _ _ => h.changed (Table.keys_update ..) rfl rfl

theorem onWire (h : Tolerant R) (id : WireId) (change : Wire → Wire) : Leads R (onWire id change) :=
  h.bind (h.ask _) fun _ _ => h.changed (Table.keys_update ..) rfl rfl

theorem validated (h : Tolerant R) (validate : Bool) (touched : List Id) :
    Leads R (validated validate touched) := by
  unfold Edit.validated
  split
  · exact h.ask _
  · exact h.pure _

/-! ## Changes -/

open Circuit

theorem setPulse (h : Tolerant R) (validate : Bool) (id : CellId) (colour : Colour) (pulse : Option Pulse) :
    Leads R (setPulse validate id colour pulse) :=
  h.bind (h.onCell _ _) fun _ => h.validated _ _

theorem tagCell (h : Tolerant R) (validate : Bool) (id : CellId) (tag : CellTag) :
    Leads R (tagCell validate id tag) :=
  h.bind (h.onCell _ _) fun _ => h.validated _ _

theorem clearTags (h : Tolerant R) : Leads R clearTags := fun _ => h.changed (Table.keys_map ..) rfl rfl

theorem reparent (h : Tolerant R) (id parent : CellId) : Leads R (reparent id parent) := by
  refine h.bind (h.ask _) fun cell => ?_
  split
  next old =>
    refine h.bind (h.ask _) fun _ => h.bind (h.ask _) fun below => ?_
    exact ite (h.throw_bind _ _) (ite (h.pure _) (h.bind (h.onCell _ _) fun _ =>
      h.bind (h.onCell _ _) fun _ => h.bind (h.onCell _ _) fun _ => h.pure _))
  next => exact h.throw _

theorem modifyCell (h : Tolerant R) (validate : Bool) (id : CellId) (patch : CellPatch) :
    Leads R (modifyCell validate id patch) := by
  refine h.bind ?_ fun _ => h.bind (h.onCell _ _) fun _ => h.validated _ _
  cases patch.parent with
  | none => exact h.pure _
  | some parent => exact h.bind (h.reparent id parent) fun _ => h.pure _

theorem moveSource (h : Tolerant R) (id : WireId) (old : CellId) (source : Option CellId) :
    Leads R (moveSource id old source) := by
  cases source with
  | none => exact h.pure _
  | some source =>
    exact ite (h.pure _) (h.bind (h.ask _) fun _ => h.bind (h.onCell _ _) fun _ =>
      h.bind (h.onCell _ _) fun _ => h.bind (h.onWire _ _) fun _ => h.pure _)

theorem moveTarget (h : Tolerant R) (id : WireId) (old : CellId) (target : Option CellId) :
    Leads R (moveTarget id old target) := by
  cases target with
  | none => exact h.pure _
  | some target =>
    exact ite (h.pure _) (h.bind (h.ask _) fun _ => h.bind (h.onCell _ _) fun _ =>
      h.bind (h.onCell _ _) fun _ => h.bind (h.onWire _ _) fun _ => h.pure _)

theorem modifyWire (h : Tolerant R) (validate : Bool) (id : WireId) (patch : WirePatch) :
    Leads R (modifyWire validate id patch) :=
  h.bind (h.ask _) fun _ => h.bind (h.moveSource _ _ _) fun _ =>
    h.bind (h.moveTarget _ _ _) fun _ => h.bind (h.onWire _ _) fun _ => h.validated _ _

/-! ## Removals -/

theorem retire (h : Tolerant R) (removal : Removal) (id : Id) : Leads R (retire removal id) :=
  h.retired removal id

theorem detachWire (h : Tolerant R) (id : WireId) : Leads R (detachWire id) :=
  h.bind (h.ask _) fun _ => h.bind (h.onCell _ _) fun _ => h.bind (h.onCell _ _) fun _ => h.pure _

theorem removeWire (h : Tolerant R) (validate : Bool) (removal : Removal) (id : WireId) :
    Leads R (removeWire validate removal id) :=
  h.bind (h.detachWire id) fun _ => h.bind (h.retire _ _) fun _ => h.validated _ _

theorem removeWires (h : Tolerant R) (removal : Removal) (doomed : List CellId) (ids : List WireId)
    (touched : List Id) : Leads R (removeWires removal doomed ids touched) := by
  induction ids generalizing touched with
  | nil => exact h.pure _
  | cons id ids ih => exact h.bind (h.detachWire id) fun _ => h.bind (h.retire _ _) fun _ => ih _

theorem removeCell (h : Tolerant R) (validate : Bool) (removal : Removal) (id : CellId) :
    Leads R (removeCell validate removal id) := by
  refine h.bind (h.ask _) fun cell => ?_
  split
  next parent =>
    refine h.bind (h.ask _) fun doomed => h.bind (h.ask _) fun wires =>
      h.bind (h.removeWires _ _ _ _) fun touched => h.bind (h.onCell _ _) fun _ =>
        h.bind ?_ fun _ => h.validated _ _
    induction doomed with
    | nil => exact h.pure _
    | cons id doomed ih => exact h.bind (h.retire _ _) fun _ => ih
  next => exact h.throw _

theorem purge (h : Tolerant R) : Leads R purge := h.purged

end Tolerant

end PulseCircuit
