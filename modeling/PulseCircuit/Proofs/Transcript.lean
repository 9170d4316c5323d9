import PulseCircuit.Proofs.Unchecked

/-!
# Machines that need no checks

A machine that validates checks the rows an edit touched and every circuit it projects, also in the middle of
a walk. Its circuit and all it remembers are sound, so none of these checks finds anything, and the machine
does the same without them.

* `Walk.validating`: a walk takes the same steps with and without checks;
* `unbiased_peak`, `unbiased_harvest`: so do questions;
* `robust_beat`, `robust_perform`: so do beats and all other calls;
* `transcript_validate`: what is seen of a new machine, call after call, is the same with and without checks.
-/

namespace PulseCircuit

open Circuit Edit Evaluator Running

/-! ## Walks -/

/-- A linked circuit is projected to the same circuit whether that is checked or not. -/
theorem Circuit.Linked.project_eq {c : Circuit} (h : c.Linked) (validate other : Bool) :
    c.project validate = c.project other := by
  obtain ⟨d, hd⟩ := h.project_ok validate
  obtain ⟨d', hd'⟩ := h.project_ok other
  obtain ⟨kept, hkept, rfl⟩ := Circuit.project_ok hd
  obtain ⟨kept', hkept', rfl⟩ := Circuit.project_ok hd'
  rw [hkept] at hkept'
  cases hkept'
  rw [hd, hd']

namespace Evaluator

/-- The evaluator in another setting. -/
def validating (e : Evaluator) (validate : Bool) : Evaluator := { e with validate := validate }

/-- All circuits an evaluator looks at are linked. -/
abbrev Linked (e : Evaluator) : Prop := e.Throughout Circuit.Linked

theorem Walk.linked {fuel : Nat} {task : Task} {e e' : Evaluator} {answer : Except Fault Peak}
    (h : Walk fuel task e answer e') (hlinked : e.Linked) : e'.Linked :=
  h.throughout (fun hc hproject => hc.of_project hproject) hlinked

/-- A walk takes the same steps in another setting. -/
theorem Walk.validating {fuel : Nat} {task : Task} {e e' : Evaluator} {answer : Except Fault Peak}
    (h : Walk fuel task e answer e') (hlinked : e.Linked) (validate : Bool) :
    Walk fuel task (e.validating validate) answer (e'.validating validate) := by
  induction h with
  | cut => exact .cut
  | reuse hdone => exact .reuse hdone
  | again hpending => exact .again hpending
  | descend hnew _ ih => exact .descend (e := Evaluator.validating _ validate) hnew (ih hlinked)
  | frameless hframe => exact .frameless hframe
  | absent hframe hcell hoffset => exact .absent hframe hcell hoffset
  | lost hframe hcell hhere => exact .lost hframe hcell hhere
  | stored hframe hcell hfinal => exact .stored hframe hcell hfinal
  | gather hframe hcell hfinal _ ih => exact .gather hframe hcell hfinal (ih hlinked)
  | done => exact .done
  | wireless hwire => exact .wireless hwire
  | skip hwire hadmits _ ih => exact .skip hwire hadmits (ih hlinked)
  | sourceless hwire hadmits hsource => exact .sourceless hwire hadmits hsource
  | broken hwire hadmits hsource _ ih => exact .broken hwire hadmits hsource (ih hlinked)
  | settle hwire hadmits hsource _ hfinal ih =>
    exact .settle hwire hadmits hsource (ih hlinked) hfinal
  | proceed hwire hadmits hsource hlook hfinal _ ihlook ihrest =>
    exact .proceed hwire hadmits hsource (ihlook hlinked) hfinal (ihrest (hlook.linked hlinked))
  | stay _ ih => exact .stay (ih hlinked)
  | deadEnd htiming hdead => exact .deadEnd htiming hdead
  | known htiming hdead hframe _ ih => exact .known htiming hdead hframe (ih hlinked)
  | adrift htiming hdead hnew hcurrent => exact .adrift htiming hdead hnew hcurrent
  | unprojectable htiming hdead hnew hcurrent hproject =>
    rw [(hlinked _ _ hcurrent).project_eq _ validate] at hproject
    exact .unprojectable htiming hdead hnew hcurrent hproject
  | stale htiming hdead hnew hcurrent hproject hstale =>
    rw [(hlinked _ _ hcurrent).project_eq _ validate] at hproject
    exact .stale htiming hdead hnew hcurrent hproject hstale
  | imagine htiming hdead hnew hcurrent hproject hfresh _ ih =>
    have hnext := (hlinked _ _ hcurrent).of_project hproject
    rw [(hlinked _ _ hcurrent).project_eq _ validate] at hproject
    exact .imagine htiming hdead hnew hcurrent hproject hfresh (ih (hlinked.imagining hnext _))

/-- No walk through linked circuits finds a defect. -/
theorem Walk.spotless {fuel : Nat} {task : Task} {e e' : Evaluator} {answer : Except Fault Peak}
    (h : Walk fuel task e answer e') (hlinked : e.Linked) (id : Id) (defect : Defect) :
    answer ≠ .error (.invalid id defect) := by
  induction h with
  | cut => simp
  | descend _ _ ih => exact ih hlinked
  | lost _ hcell =>
    exact fun hfault => cell_ne_invalid _ _ id defect (hcell.trans (by simpa using hfault))
  | gather _ _ _ _ ih => exact ih hlinked
  | wireless hwire =>
    exact fun hfault => wire_ne_invalid _ _ id defect (hwire.trans (by simpa using hfault))
  | skip _ _ _ ih => exact ih hlinked
  | sourceless _ _ hsource =>
    exact fun hfault => cell_ne_invalid _ _ id defect (hsource.trans (by simpa using hfault))
  | broken _ _ _ _ ih => simpa using ih hlinked
  | proceed _ _ _ hlook _ _ _ ihrest => exact ihrest (hlook.linked hlinked)
  | stay _ ih => exact ih hlinked
  | known _ _ _ _ ih => exact ih hlinked
  | unprojectable _ _ _ hcurrent hproject =>
    obtain ⟨d, hd⟩ := (hlinked _ _ hcurrent).project_ok _
    cases hproject.symm.trans hd
  | imagine _ _ _ hcurrent hproject _ _ ih =>
    exact ih (hlinked.imagining ((hlinked _ _ hcurrent).of_project hproject) _)
  | reuse | again | frameless | absent | stored | done | settle | deadEnd | adrift | stale => simp

/-! ## Questions -/

/-- A question answered the same in another setting, and without finding a defect. -/
abbrev Unbiased {α : Type} (validate : Bool) (question : Evaluation α) (e : Evaluator) : Prop :=
  Indifferent Evaluator.Linked (·.validating validate) question e

variable {e : Evaluator}

/-- A query gets one reply in both settings, and leaves the evaluator as far. -/
theorem reply_validating (h : e.Linked) (validate : Bool) (q : Query) :
    (e.validating validate).reply q = e.reply q ∧
      (e.validating validate).next q = (e.next q).validating validate := by
  cases hframe : e.timeline.frame? 0 with
  | none =>
    obtain ⟨hnext, hreply⟩ := reply_of_frameless q hframe
    obtain ⟨hnext', hreply'⟩ := reply_of_frameless (e := e.validating validate) q hframe
    exact ⟨by rw [hreply, hreply'], by rw [hnext, hnext']⟩
  | some present =>
  cases hcell : present.circuit.cell q.id with
  | error fault =>
    obtain ⟨hnext, hreply⟩ := reply_of_absent q hframe hcell
    obtain ⟨hnext', hreply'⟩ := reply_of_absent (e := e.validating validate) q hframe hcell
    exact ⟨by rw [hreply, hreply'], by rw [hnext, hnext']⟩
  | ok cell =>
    -- both are walks allowed to go equally deep
    have hwalk := (walk_of_live q hframe hcell).validating h validate
    exact Walk.unique (walk_of_live (e := e.validating validate) q hframe hcell) hwalk

theorem reply_spotless (h : e.Linked) (q : Query) (id : Id) (defect : Defect) :
    e.reply q ≠ .error (.invalid id defect) := by
  rcases e.reply_cases q with ⟨-, ⟨-, hreply⟩ | ⟨present, fault, -, hcell, hreply⟩⟩ | ⟨_, _, -, -, hwalk⟩
  · rw [hreply]
    simp
  · rw [hreply]
    exact fun hfault => cell_ne_invalid _ _ id defect (hcell.trans (by simpa using hfault))
  · exact hwalk.spotless h id defect

theorem Linked.next (h : e.Linked) (q : Query) : (e.next q).Linked := by
  rcases e.reply_cases q with ⟨hsame, -⟩ | ⟨_, _, -, -, hwalk⟩
  · rw [hsame]
    exact h
  · exact hwalk.linked h

theorem unbiased_peak (h : e.Linked) (validate : Bool) (id : CellId) (colour : Colour)
    (timing : Timing) : Unbiased validate (Evaluator.peak id colour timing) e := by
  obtain ⟨hreply, hnext⟩ := reply_validating h validate ⟨id, colour, timing⟩
  refine ⟨h.next ⟨id, colour, timing⟩, ?_, ?_⟩
  · intro x defect e' hfault
    refine reply_spotless h ⟨id, colour, timing⟩ x defect ?_
    rw [reply, Evaluation.answer, hfault]
  · cases hfound : e.reply ⟨id, colour, timing⟩ with
    | ok peak =>
      rw [hfound] at hreply
      rw [peak_of_ok hfound, peak_of_ok hreply, hnext, inState]
    | error fault =>
      rw [hfound] at hreply
      rw [peak_of_error hfound, peak_of_error hreply, hnext, inState]

theorem unbiased_firesInSome (h : e.Linked) (validate : Bool) (id : CellId) (colours : List Colour) :
    Unbiased validate (Evaluator.firesInSome id colours) e := by
  induction colours generalizing e with
  | nil => exact .pure h false
  | cons colour colours ih =>
    refine (unbiased_peak h validate id colour .now).bind fun peak e' he' => ?_
    split
    · exact .pure he' true
    · exact ih he'

end Evaluator

namespace Machine

section Harvest

variable {e : Evaluator} (validate : Bool)

theorem unbiased_harvestCell (h : e.Linked) (id : CellId) (colours : List Colour) (fired : Bool)
    (operations : List Operation) :
    Unbiased validate (harvestCell id colours fired operations) e := by
  induction colours generalizing e fired operations with
  | nil => exact .pure h _
  | cons colour colours ih =>
    refine (unbiased_peak h validate id colour .now).bind fun peak e' he' => ?_
    split
    · exact ih he' _ _
    · exact ih he' _ _

theorem unbiased_harvest (h : e.Linked) (ids : List CellId) (gathered : Harvest) :
    Unbiased validate (harvest ids gathered) e := by
  induction ids generalizing e gathered with
  | nil => exact .pure h _
  | cons id ids ih =>
    exact (unbiased_harvestCell validate h id Colour.all false gathered.operations).bind
      fun found e' he' => ih he' _

end Harvest

/-! ## Calls -/

/-- What a call gives back. -/
inductive Reply where
  | done
  | cell (id : CellId)
  | wire (id : WireId)
  | purged (ids : List Id)
  | applied (applied : Applied)
  | row (row : Row)
  | found (found : Bool)
  | subtree (ids : List CellId)
  | projected (circuit : Circuit)
  | peak (peak : Peak)
  | report (report : BeatReport)
  | reports (reports : List BeatReport)

end Machine

/-- The edit an action stands for, with what it returns. -/
def Circuit.Action.reply (validate : Bool) : Action → Edit Machine.Reply
  | .createCell parent kind position =>
    return .cell (← Circuit.createCell validate parent kind position)
  | .createWire source target colour timing =>
    return .wire (← Circuit.createWire validate source target colour timing)
  | .purge => return .purged (← Circuit.purge)
  | action => do
    action.run validate
    return .done

namespace Machine

/-- One call of a machine or of its circuit, with its arguments. Edits are validated as the machine is set. -/
inductive Request where
  | edit (action : Action)
  | applyAll (operations : List Operation)
  | row (id : Id)
  | litAbove (id : CellId)
  | subtree (id : CellId)
  | project
  /-- The peak of a cell with nothing remembered. -/
  | getPeak (id : CellId) (colour : Colour) (timing : Timing)
  | fire (id : CellId) (colour : Colour)
  | peak (id : CellId) (colour : Colour) (timing : Timing)
  | isFiring (id : CellId)
  | setHistoryLimit (limit : Nat)
  | enableLedger
  | beat
  | run (count : Nat)

/-- Asks the machine without changing it. -/
def asking {α : Type} (question : Machine → Except Fault α) : Run α := fun m =>
  match question m with
  | .ok a => .ok a m
  | .error fault => .error fault m

def Request.perform : Request → Run Reply
  | .edit action => do editing (action.reply (← get).validate)
  | .applyAll operations =>
    return .applied (← editing (Circuit.applyAll (← get).validate operations))
  | .row id => return .row (← asking (·.circuit.row id))
  | .litAbove id => return .found (← asking (·.circuit.litAbove id))
  | .subtree id => return .subtree (← asking (·.circuit.subtree id))
  | .project => return .projected (← asking fun m => m.circuit.project m.validate)
  | .getPeak id colour timing =>
    return .peak (← asking fun m => m.circuit.getPeak m.validate id colour timing [] [])
  | .fire id colour => do
    Machine.fire id colour
    return .done
  | .peak id colour timing => return .peak (← asking (·.peak id colour timing))
  | .isFiring id => return .found (← asking (·.isFiring id))
  | .setHistoryLimit limit => do
    modify (·.setHistoryLimit limit)
    return .done
  | .enableLedger => do
    modify Machine.enableLedger
    return .done
  | .beat => return .report (← Machine.beat)
  | .run count => return .reports (← Machine.run count)

/-- The machine with its checks switched on or off. -/
def validating (m : Machine) (validate : Bool) : Machine := { m with validate := validate }

/-- A program that does the same on a sound machine with and without checks, and keeps it sound. -/
abbrev Robust {α : Type} (validate : Bool) (program : Run α) (m : Machine) : Prop :=
  Indifferent Machine.Sound (·.validating validate) program m

variable {α : Type} {m : Machine} {validate : Bool}

theorem Sound.evaluator_linked (h : m.Sound) : m.evaluator.Linked := by
  refine throughout_ofHistory (fun c hc => ?_) m.validate
  rw [List.append_nil] at hc
  rcases List.mem_cons.mp hc with rfl | hc
  · exact h.circuit.linked
  · exact (h.history c hc).linked

theorem robust_editing (h : m.Sound) {edit : Bool → Edit α}
    (hsound : ∀ validate, ((edit validate).final m.circuit).Sound)
    (hedit : Unaffected edit m.circuit) :
    Robust validate (do let m ← get; editing (edit m.validate)) m where
  keeps := h.editing (hsound m.validate)
  spotless := by
    intro id defect t hfault
    have hrun : editing (edit m.validate) m = .error (.invalid id defect) t := hfault
    rw [editing, hedit.same] at hrun
    split at hrun
    next => cases hrun
    next fault d hother =>
      cases hrun
      exact hedit.spotless id defect d hother
  same := by
    show editing (edit validate) (m.validating validate) = inState _ (editing (edit m.validate) m)
    have hsame : edit validate (m.validating validate).circuit = edit false m.circuit := hedit.same validate
    rw [editing, editing, hedit.same m.validate, hsame]
    cases edit false m.circuit <;> rfl

theorem robust_asking (h : m.Sound) {question : Machine → Except Fault α}
    (hsame : question (m.validating validate) = question m)
    (hspotless : ∀ id defect, question m ≠ .error (.invalid id defect)) :
    Robust validate (asking question) m := by
  cases hquestion : question m with
  | ok a =>
    rw [hquestion] at hsame
    exact .of_ok (a := a) h (by rw [asking, hquestion]) (by rw [asking, hsame])
  | error fault =>
    have hrun : asking question m = .error fault m := by rw [asking, hquestion]
    refine ⟨by rwa [final_of_error hrun], ?_, ?_⟩
    · intro id defect t hfault
      rw [hrun] at hfault
      cases hfault
      exact hspotless id defect hquestion
    · rw [hrun, asking, hsame, hquestion, inState]

theorem robust_modify {change : Machine → Machine} (hsound : (change m).Sound)
    (hsame : change (m.validating validate) = (change m).validating validate) :
    Robust validate (modify change) m :=
  .of_ok hsound (modify_run change m) ((modify_run change _).trans (by rw [hsame]))

theorem robust_fire (h : m.Sound) (id : CellId) (colour : Colour) :
    Robust validate (Machine.fire id colour) m := by
  have hedit : Robust validate (do let m ← get; editing (Circuit.fireCell m.validate id colour)) m :=
    robust_editing h (fun validate => h.circuit.setPulse validate id colour (some .raw))
      (settles_onCell id _ _ m.circuit fun validate => h.circuit.setPulse validate id colour (some .raw))
  exact hedit.bind fun _ t ht => robust_modify ⟨ht.circuit, ht.history⟩ rfl

theorem robust_harvestAll (h : m.Sound) : Robust validate harvestAll m := by
  have hasked := unbiased_harvest validate h.evaluator_linked (m.circuit.cells.map (·.id)) ⟨[], []⟩
  have hsame : harvest ((m.validating validate).circuit.cells.map (·.id)) ⟨[], []⟩
      (m.validating validate).evaluator =
        inState _ (harvest (m.circuit.cells.map (·.id)) ⟨[], []⟩ m.evaluator) := hasked.same
  cases hrun : harvest (m.circuit.cells.map (·.id)) ⟨[], []⟩ m.evaluator with
  | ok gathered e =>
    rw [hrun, inState] at hsame
    exact .of_ok (a := (gathered, e.stats)) h (by rw [harvestAll, hrun]) (by rw [harvestAll, hsame]; rfl)
  | error fault e =>
    rw [hrun, inState] at hsame
    have hfails : harvestAll m = .error fault m := by rw [harvestAll, hrun]
    refine ⟨by rwa [final_of_error hfails], ?_, ?_⟩
    · intro id defect t hfault
      rw [hfails] at hfault
      cases hfault
      exact hasked.spotless id defect e hrun
    · rw [hfails, harvestAll, hsame, inState]

theorem robust_moveOn (h : m.Sound) : Robust validate moveOn m := by
  obtain ⟨d, hd⟩ := h.circuit.linked.project_ok m.validate
  have hmoved := h.moveOn
  rw [final_of_ok (moveOn_of_ok hd)] at hmoved
  refine .of_ok hmoved (moveOn_of_ok hd) (moveOn_of_ok ?_)
  exact (h.circuit.linked.project_eq _ _).trans hd

theorem robust_beat (h : m.Sound) : Robust validate Machine.beat m := by
  rw [Machine.beat]
  have hcounted : Robust validate (modify fun m => { m with beats := m.beats + 1 }) m :=
    robust_modify ⟨h.circuit, h.history⟩ rfl
  refine hcounted.bind fun _ m₁ h₁ => ?_
  refine (robust_harvestAll h₁).bind fun gathered m₂ h₂ => ?_
  have hcleared : Robust validate (editing Circuit.clearTags) m₂ :=
    .of_ok (a := ()) (t := { m₂ with circuit := m₂.circuit.withoutTags })
      ⟨h₂.circuit.withoutTags, h₂.history⟩ rfl rfl
  refine hcleared.bind fun _ m₃ h₃ => ?_
  have happlied : Robust validate (do
      let m ← get
      editing (Circuit.applyAll m.validate gathered.1.operations)) m₃ :=
    robust_editing h₃ (fun validate => h₃.circuit.applyAll validate _)
      (h₃.circuit.applyAll_unaffected _)
  refine happlied.bind fun applied m₄ h₄ => ?_
  refine (robust_modify ⟨h₄.circuit, h₄.history⟩ rfl).bind fun _ m₅ h₅ => ?_
  exact (robust_moveOn h₅).bind fun _ m₆ h₆ => .of_ok h₆ rfl rfl

theorem robust_run (h : m.Sound) (count : Nat) : Robust validate (Machine.run count) m := by
  induction count generalizing m with
  | zero => exact .pure h []
  | succ count ih =>
    exact (robust_beat h).bind fun report m₁ h₁ =>
      (ih h₁).bind fun reports m₂ h₂ => .pure h₂ _

/-! ## What is seen of a machine -/

theorem sound_reply {c : Circuit} (h : c.Sound) (validate : Bool) (action : Action) :
    ((action.reply validate).final c).Sound := by
  cases action with
  | createCell parent kind position =>
    exact final_bind (h.createCell validate parent kind position) fun _ _ _ hd => hd
  | createWire source target colour timing =>
    exact final_bind (h.createWire validate source target colour timing) fun _ _ _ hd => hd
  | purge => exact h.purge
  | _ => exact final_bind ((Action.final_run validate _ c).symm ▸ h.perform validate _) fun _ _ _ hd => hd

theorem reply_unaffected {c : Circuit} (h : c.Sound) (action : Action) :
    Unaffected (action.reply ·) c := by
  have hdone : ∀ {edit : Bool → Edit Unit}, Unaffected edit c →
      Unaffected (fun validate => do edit validate; return Reply.done) c := fun hedit =>
    hedit.bind fun _ d _ => .fixed (spotless_pure _ d)
  cases action with
  | createCell parent kind position =>
    exact (settles_createCell parent kind position c fun validate =>
      h.createCell validate parent kind position).bind fun _ d _ => .fixed (spotless_pure _ d)
  | createWire source target colour timing =>
    exact (settles_createWire source target colour timing c fun validate =>
      h.createWire validate source target colour timing).bind fun _ d _ => .fixed (spotless_pure _ d)
  | fireCell id colour =>
    exact hdone (settles_onCell id _ _ c fun validate => h.setPulse validate id colour (some .raw))
  | fire id colour pulse =>
    exact hdone (settles_onCell id _ _ c fun validate => h.setPulse validate id colour (some pulse))
  | clearFire id colour =>
    exact hdone (settles_onCell id _ _ c fun validate => h.setPulse validate id colour none)
  | tagCell id tag => exact hdone (settles_onCell id _ _ c fun validate => h.tagCell validate id tag)
  | clearTags => exact hdone (.fixed (.of_ok (modify_run _ c)))
  | modifyCell id patch =>
    exact hdone (settles_modifyCell id patch c fun validate => h.modifyCell validate id patch)
  | modifyWire id patch =>
    exact hdone (settles_modifyWire id patch c fun validate => h.modifyWire validate id patch)
  | deleteCell id =>
    exact hdone (settles_removeCell .delete id c fun validate => h.removeCell validate .delete id)
  | archiveCell id =>
    exact hdone (settles_removeCell .archive id c fun validate => h.removeCell validate .archive id)
  | deleteWire id =>
    exact hdone (settles_removeWire .delete id c fun validate => h.removeWire validate .delete id)
  | archiveWire id =>
    exact hdone (settles_removeWire .archive id c fun validate => h.removeWire validate .archive id)
  | purge => exact .fixed (.of_ok rfl)

/-- The answer to a question does not depend on the setting and is no defect. -/
theorem answer_unbiased {question : Evaluation α} {e : Evaluator}
    (hquestion : Unbiased validate question e) :
    question.answer (e.validating validate) = question.answer e ∧
      ∀ id defect, question.answer e ≠ .error (.invalid id defect) := by
  have hsame := hquestion.same
  have hspotless := hquestion.spotless
  cases hrun : question e with
  | ok a e' =>
    rw [hrun, inState] at hsame
    rw [Evaluation.answer, Evaluation.answer, hsame, hrun]
    simp
  | error fault e' =>
    rw [hrun, inState] at hsame
    rw [Evaluation.answer, Evaluation.answer, hsame, hrun]
    refine ⟨rfl, fun id defect hfault => ?_⟩
    cases hfault
    exact hspotless id defect e' hrun

/-- Every request does the same with and without checks. -/
theorem robust_perform (h : m.Sound) (request : Request) : Robust validate request.perform m := by
  -- what a request returns is only wrapped up
  have hwrap : ∀ {α : Type} {program : Run α} (wrap : α → Reply), Robust validate program m →
      Robust validate (do return wrap (← program)) m := fun wrap hprogram =>
    hprogram.bind fun _ t ht => .pure ht _
  have hlinked := h.circuit.linked
  cases request with
  | edit action =>
    exact robust_editing h (fun validate => sound_reply h.circuit validate action)
      (reply_unaffected h.circuit action)
  | applyAll operations =>
    exact hwrap .applied (robust_editing h (fun validate => h.circuit.applyAll validate operations)
      (h.circuit.applyAll_unaffected operations))
  | row id =>
    refine hwrap .row (robust_asking h rfl fun _ _ hfault => ?_)
    rw [Circuit.row] at hfault
    split at hfault <;> cases hfault
  | litAbove id =>
    refine hwrap .found (robust_asking h rfl fun x defect hfault => ?_)
    cases hcell : m.circuit.cell id with
    | ok cell =>
      obtain ⟨found, hfound⟩ := hlinked.checked.litAbove_ok (cell_ok_iff.mp hcell)
      cases hfound.symm.trans hfault
    | error fault =>
      rw [litAbove, hcell] at hfault
      cases hfault
      exact cell_ne_invalid _ _ _ _ hcell
  | subtree id =>
    exact hwrap .subtree (robust_asking h rfl (walk_ne_invalid m.circuit id _ _ _))
  | project =>
    refine hwrap .projected (robust_asking h (hlinked.project_eq _ _) fun id defect hfault => ?_)
    obtain ⟨d, hd⟩ := hlinked.project_ok m.validate
    cases hd.symm.trans hfault
  | getPeak id colour timing =>
    have hfresh : (Evaluator.ofHistory m.validate m.circuit [] []).Linked :=
      throughout_ofHistory (by simpa using hlinked) m.validate
    obtain ⟨hsame, hspotless⟩ := answer_unbiased (unbiased_peak hfresh validate id colour timing)
    exact hwrap .peak (robust_asking h hsame hspotless)
  | fire id colour => exact (robust_fire h id colour).bind fun _ t ht => .pure ht _
  | peak id colour timing =>
    obtain ⟨hsame, hspotless⟩ :=
      answer_unbiased (unbiased_peak h.evaluator_linked validate id colour timing)
    exact hwrap .peak (robust_asking h hsame hspotless)
  | isFiring id =>
    obtain ⟨hsame, hspotless⟩ :=
      answer_unbiased (unbiased_firesInSome h.evaluator_linked validate id Colour.all)
    exact hwrap .found (robust_asking h hsame hspotless)
  | setHistoryLimit limit =>
    refine (robust_modify ⟨h.circuit, fun c hc => ?_⟩ rfl).bind fun _ t ht => .pure ht _
    exact h.history c (List.mem_of_mem_take hc)
  | enableLedger =>
    exact (robust_modify ⟨h.circuit, h.history⟩ rfl).bind fun _ t ht => .pure ht _
  | beat => exact hwrap .report (robust_beat h)
  | run count => exact hwrap .reports (robust_run h count)

/-- What is seen once a call is over: what it gave back or why it failed, and all of the machine but its
setting. -/
structure Sight where
  reply : Except Fault Reply
  circuit : Circuit
  beats : Nat
  history : List Circuit
  historyLimit : Nat
  ledger : Ledger

def Request.sight (request : Request) (m : Machine) : Sight where
  reply :=
    match request.perform m with
    | .ok reply _ => .ok reply
    | .error fault _ => .error fault
  circuit := (request.perform.final m).circuit
  beats := (request.perform.final m).beats
  history := (request.perform.final m).history
  historyLimit := (request.perform.final m).historyLimit
  ledger := (request.perform.final m).ledger

/-- What is seen over some requests, each made of what the one before it left behind. -/
def transcript : List Request → Machine → List Sight
  | [], _ => []
  | request :: requests, m => request.sight m :: transcript requests (request.perform.final m)

theorem final_validating {request : Request} (h : Robust validate request.perform m) :
    request.perform.final (m.validating validate) =
      (request.perform.final m).validating validate := by
  rw [EStateM.final, EStateM.final, h.same]
  cases request.perform m <;> rfl

theorem sight_validating {request : Request} (h : Robust validate request.perform m) :
    request.sight (m.validating validate) = request.sight m := by
  rw [Request.sight, Request.sight, final_validating h, h.same]
  cases request.perform m <;> rfl

theorem sight_spotless {request : Request} (h : Robust validate request.perform m) (id : Id)
    (defect : Defect) : (request.sight m).reply ≠ .error (.invalid id defect) := by
  rw [Request.sight]
  cases hrun : request.perform m with
  | ok reply t => simp
  | error fault t =>
    intro hfault
    cases hfault
    exact h.spotless id defect t hrun

/-- From a sound machine on, the same is seen with and without checks, and no defect among it. -/
theorem Sound.transcript_validating (h : m.Sound) (validate : Bool) (requests : List Request) :
    transcript requests (m.validating validate) = transcript requests m ∧
      ∀ sight ∈ transcript requests m, ∀ id defect, sight.reply ≠ .error (.invalid id defect) := by
  induction requests generalizing m with
  | nil => exact ⟨rfl, by simp [transcript]⟩
  | cons request requests ih =>
    have hrobust : Robust validate request.perform m := robust_perform h request
    obtain ⟨hsame, hspotless⟩ := ih hrobust.keeps
    refine ⟨?_, ?_⟩
    · rw [transcript, transcript, sight_validating hrobust, final_validating hrobust, hsame]
    · rw [transcript, List.forall_mem_cons]
      exact ⟨sight_spotless hrobust, hspotless⟩

/-- A new machine with checks and one without give the same results, failures included, and have the same
circuit, history and number of beats after every call. No check reports a defect. -/
theorem transcript_validate (requests : List Request) :
    transcript requests (ofCircuit true .initial) = transcript requests (ofCircuit false .initial) ∧
      ∀ sight ∈ transcript requests (ofCircuit true .initial), ∀ id defect,
        sight.reply ≠ .error (.invalid id defect) := by
  have h : (ofCircuit false .initial).Sound := ⟨sound_initial, fun c hc => by cases hc⟩
  obtain ⟨hsame, hspotless⟩ := h.transcript_validating true requests
  have hchecked : transcript requests (ofCircuit true .initial) =
      transcript requests (ofCircuit false .initial) := hsame
  exact ⟨hchecked, hchecked ▸ hspotless⟩

end Machine

end PulseCircuit
